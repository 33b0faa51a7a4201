import Wireframe.Proofs.Chart
import Wireframe.Proofs.Derivation

/-!
# Places mirror the tree

The places of the nodes of a document are nested and ordered as the nodes are, whatever is wrong
with its source: each runs from an opening parenthesis to the one that matches it, inside the place
of the node around it and behind the nodes before it.  A source without faults has one node for each
of its opening parentheses, those of facts and parameter lists apart.
-/

namespace Wireframe

namespace Position

variable {p q r : Position}

theorem Precedes.of_not_left (first : p.Precedes q) (later : ¬r.Precedes q) : p.Precedes r := by
  unfold Precedes at *
  omega

theorem Precedes.of_not_right (first : q.Precedes r) (later : ¬q.Precedes p) : p.Precedes r := by
  unfold Precedes at *
  omega

theorem not_precedes_ofOffset {source : List Char} {i j : Nat} (later : i ≤ j)
    (inside : j ≤ source.length) : ¬(ofOffset source j).Precedes (ofOffset source i) := by
  rcases Nat.lt_or_eq_of_le later with before | rfl
  · exact (precedes_ofOffset before inside).asymm
  · exact fun before => before.asymm before

end Position

namespace Token

/-- Whether tokens stand one behind the other, each but the end of a source with characters of its
own. -/
structure InOrder (tokens : List Token) : Prop where
  proper : ∀ t ∈ tokens, t.start.Precedes t.stop ∨ t.kind = .eof ∧ t.start = t.stop
  apart : tokens.Pairwise fun t u => ¬u.start.Precedes t.stop

namespace InOrder

variable {tokens row : List Token} {t : Token}

theorem sublist (ordered : InOrder tokens) (part : row.Sublist tokens) : InOrder row :=
  ⟨fun t member => ordered.proper t (part.subset member), ordered.apart.sublist part⟩

theorem precedes (ordered : InOrder tokens) (member : t ∈ tokens) (inner : t.kind ≠ .eof) :
    t.start.Precedes t.stop :=
  (ordered.proper t member).resolve_right fun ends => inner ends.1

/-- No two opening parentheses start at the same position. -/
theorem countP_opensAt_le_one (ordered : InOrder tokens) (p : Position) :
    tokens.countP (·.opensAt p) ≤ 1 := by
  have part := ordered.sublist (tokens.filter_sublist (p := (·.opensAt p)))
  have opens : ∀ t ∈ tokens.filter (·.opensAt p), t.kind = .openParen ∧ t.start = p := by
    intro t member
    simpa [opensAt] using (List.mem_filter.mp member).2
  rw [List.countP_eq_length_filter]
  generalize tokens.filter (·.opensAt p) = found at part opens
  rcases found with - | ⟨t, - | ⟨u, rest⟩⟩
  · simp
  · simp
  · obtain ⟨opens', start⟩ := opens t List.mem_cons_self
    obtain ⟨-, start'⟩ := opens u (by simp)
    have apart := (List.pairwise_cons.mp part.apart).1 u List.mem_cons_self
    rw [start', ← start] at apart
    exact absurd (part.precedes List.mem_cons_self (by simp [opens'])) apart

theorem split_unique (ordered : InOrder tokens) (opens : t.kind = .openParen)
    {before before' behind behind' : List Token} (split : tokens = before ++ t :: behind)
    (split' : tokens = before' ++ t :: behind') : before = before' ∧ behind = behind' := by
  have once := ordered.countP_opensAt_le_one t.start
  have here : t.opensAt t.start = true := by simp [opensAt, opens]
  rw [split, List.countP_append, List.countP_cons, if_pos here] at once
  have noneBefore : t ∉ before := fun member =>
    List.countP_eq_zero.mp (by omega : before.countP (·.opensAt t.start) = 0) t member here
  have noneBehind : t ∉ behind := fun member =>
    List.countP_eq_zero.mp (by omega : behind.countP (·.opensAt t.start) = 0) t member here
  obtain ⟨sameBefore, -, sameBehind⟩ :=
    (List.append_cons_inj_of_notMem noneBefore noneBehind).mp (split.symm.trans split')
  exact ⟨sameBefore, sameBehind⟩

end InOrder

theorem opensNoNode_concat_eof (before behind : List Token) (p : Position) :
    opensNoNode before (behind ++ [eof p]) = opensNoNode before behind := by
  cases behind with
  | nil => simp [opensNoNode, isSymbol, eof]
  | cons t rest => rfl

theorem exists_span {source : List Char} {spans : List Span} {words : List Token}
    {t : Token} (holds : List.Forall₂ (Span.Holds source) spans words) (member : t ∈ words) :
    ∃ s ∈ spans, s.Holds source t := by
  induction holds with
  | nil => cases member
  | cons here later ih =>
      rcases List.mem_cons.mp member with rfl | further
      · exact ⟨_, List.mem_cons_self, here⟩
      · obtain ⟨s, isSpan, holds⟩ := ih further
        exact ⟨s, List.mem_cons_of_mem _ isSpan, holds⟩

/-- Words at spans that do not cross stand in order. -/
theorem inOrder_of_tiles {source : List Char} {n : Nat} {words : List Token} {spans : List Span}
    (tiles : Tiles source n words spans) : InOrder words := by
  obtain ⟨inside, ordered, holds, -⟩ := tiles
  constructor
  · intro t member
    obtain ⟨s, isSpan, here⟩ := exists_span holds member
    obtain ⟨-, length, fits⟩ := inside s isSpan
    rw [here.start, here.stop]
    exact Or.inl (Position.precedes_ofOffset length fits)
  · induction holds with
    | nil => exact List.Pairwise.nil
    | cons here later ih =>
        obtain ⟨first, ordered⟩ := List.pairwise_cons.mp ordered
        obtain ⟨-, inside⟩ := List.forall_mem_cons.mp inside
        refine List.Pairwise.cons (fun u member => ?_) (ih inside ordered)
        obtain ⟨r, isSpan, there⟩ := exists_span later member
        obtain ⟨-, length, fits⟩ := inside r isSpan
        rw [there.start, here.stop]
        exact Position.not_precedes_ofOffset (first r isSpan) (by omega)

/-- The tokens of a source stand in order, as often as its end is put behind them. -/
theorem inOrder_of_ofSource {source : String} {tokens : List Token}
    (found : ofSource source = .ok tokens) :
    ∃ front p, tokens = front ++ [eof p] ∧ (∀ t ∈ front, t.kind ≠ .eof) ∧
      ∀ n, InOrder (front ++ List.replicate n (eof p)) := by
  obtain ⟨words, spans, split, inner, tiles⟩ := ofSource_tiles found
  have ordered := inOrder_of_tiles tiles
  refine ⟨words, _, split, inner, fun n => ⟨fun t member => ?_, ?_⟩⟩
  · rcases List.mem_append.mp member with early | last
    · exact ordered.proper t early
    · rw [List.eq_of_mem_replicate last]
      exact Or.inr ⟨rfl, rfl⟩
  · refine List.pairwise_append.mpr ⟨ordered.apart, ?_, fun t member u last => ?_⟩
    · exact List.pairwise_replicate.mpr (Or.inr fun before => before.asymm before)
    · obtain ⟨s, isSpan, here⟩ := exists_span tiles.holds member
      rw [List.eq_of_mem_replicate last, here.stop]
      exact Position.not_precedes_ofOffset (tiles.inside s isSpan).2.2 le_rfl

end Token

/-- Whether a node starts behind the start of another place and ends no later than it. -/
def Landmark.Within (l : Landmark) (outer : Option Location) : Prop :=
  ∃ a b, l.location = some a ∧ outer = some b ∧ b.start.Precedes a.start ∧ ¬b.stop.Precedes a.stop

namespace Form

variable {front : List Token} {form : Form} {forms items : List Form} {opener closer : Token}
  {l : Landmark} {list : List Landmark}

theorem StandsAs.bounds (stands : form.StandsAs front l) :
    ∃ a, ∃ first ∈ form.tokens, ∃ last ∈ form.tokens, l.location = some a ∧ a.start = first.start ∧
      a.stop = last.stop := by
  obtain ⟨opener, items, closer, rfl⟩ := stands.closed.eq_list
  have located := stands.location
  rw [Token.span_tokens] at located
  exact ⟨_, opener, by simp [tokens], closer, by simp [tokens], located, rfl, rfl⟩

theorem Underlie.pairwise_before (ordered : Token.InOrder (tokensAll forms))
    (underlie : Underlie front forms list) : list.Pairwise Landmark.Before := by
  induction underlie with
  | nil => exact List.Pairwise.nil
  | cons_right later ih => exact ih (ordered.sublist (List.sublist_append_right _ _))
  | cons here later ih =>
      refine List.Pairwise.cons (fun m member => ?_)
        (ih (ordered.sublist (List.sublist_append_right _ _)))
      obtain ⟨form, isForm, there⟩ := Underlie.exists_form later m member
      obtain ⟨a, -, -, last, isLast, located, -, stop⟩ := here.bounds
      obtain ⟨b, first, isFirst, -, -, located', start, -⟩ := there.bounds
      refine ⟨a, b, located, located', ?_⟩
      rw [start, stop]
      exact (List.pairwise_append.mp ordered.apart).2.2 last isLast first
        ((tokens_infix_tokensAll isForm).mem isFirst)

theorem StandsAs.precedes_start (stands : form.StandsAs front l) (member : form ∈ items)
    (ordered : Token.InOrder (Form.list opener items closer).tokens)
    (opens : opener.kind = .openParen) :
    ∃ a, l.location = some a ∧ opener.start.Precedes a.start := by
  obtain ⟨a, first, isFirst, -, -, located, start, -⟩ := stands.bounds
  have inItems := (tokens_infix_tokensAll member).mem isFirst
  rw [tokens, List.cons_append] at ordered
  have behind := (List.pairwise_cons.mp ordered.apart).1 first (List.mem_append_left _ inItems)
  refine ⟨a, located, ?_⟩
  rw [start]
  exact (ordered.precedes List.mem_cons_self (by simp [opens])).of_not_left behind

theorem StandsAs.not_precedes_stop (stands : form.StandsAs front l) (member : form ∈ items)
    (ordered : Token.InOrder (Form.list opener items closer).tokens) :
    ∃ a, l.location = some a ∧ ¬closer.start.Precedes a.stop := by
  obtain ⟨a, -, -, last, isLast, located, -, stop⟩ := stands.bounds
  have inItems := (tokens_infix_tokensAll member).mem isLast
  rw [tokens] at ordered
  refine ⟨a, located, ?_⟩
  rw [stop]
  exact (List.pairwise_append.mp ordered.apart).2.2 last (List.mem_cons_of_mem opener inItems)
    closer List.mem_cons_self

/-- A node in a closed list has its place inside that of the list. -/
theorem StandsAs.inside_list (stands : form.StandsAs front l) (member : form ∈ items)
    (ordered : Token.InOrder (Form.list opener items closer).tokens)
    (opens : opener.kind = .openParen) (closes : closer.kind = .closeParen) :
    l.Inside (some ⟨opener.start, some closer.stop.line, some closer.stop.column⟩) := by
  obtain ⟨a, located, start⟩ := stands.precedes_start member ordered opens
  obtain ⟨a', located', stop⟩ := stands.not_precedes_stop member ordered
  obtain rfl := Option.some.inj (located.symm.trans located')
  have proper := ordered.precedes (t := closer) (by simp [tokens]) (by simp [closes])
  exact ⟨a, _, located, rfl, start, proper.of_not_right stop⟩

theorem StandsAs.within_list (stands : form.StandsAs front l) (member : form ∈ items)
    (ordered : Token.InOrder (Form.list opener items closer).tokens)
    (opens : opener.kind = .openParen) :
    l.Within (some ⟨opener.start, some closer.stop.line, some closer.stop.column⟩) := by
  obtain ⟨a, located, start⟩ := stands.precedes_start member ordered opens
  obtain ⟨a', located', stop⟩ := stands.not_precedes_stop member ordered
  obtain rfl := Option.some.inj (located.symm.trans located')
  refine ⟨a, _, located, rfl, start, fun before => ?_⟩
  have last : closer ∈ (Form.list opener items closer).tokens := by simp [tokens]
  rcases ordered.proper closer last with proper | ⟨-, same⟩
  · exact stop (proper.trans before)
  · exact stop (same ▸ before)

end Form

namespace Document

variable {front behind : List Token} {opener closer : Token} {items : List Form} {d : Document}
  {p : Position}

/-- Whether a list among tokens stands for a document with some faults, and the forms in it for the
nodes of the document. -/
structure Roots (front : List Token) (p : Position) (faults : List Fault) (d : Document)
    (opener : Token) (items : List Form) (closer : Token) : Prop where
  shaped : (Form.list opener items closer).Shaped
  inside : ∃ n, (Form.list opener items closer).tokens <:+: front ++ List.replicate n (Token.eof p)
  location : d.location = some ⟨opener.start, some closer.stop.line, some closer.stop.column⟩
  surveyed : Surveyed front items (faults = []) d.lists
  closed : (∀ f ∈ faults, f.cause ≠ .unclosed Schema.rootForm) → closer.kind = .closeParen
  whole : faults = [] → (Form.list opener items closer).tokens = front

private theorem among_of_infix {form : Form} {n : Nat} (shaped : form.Shaped)
    (inside : form.tokens <:+: front ++ List.replicate n (Token.eof p)) : form.Among front := by
  refine ⟨shaped, _, fun t member => ?_, inside⟩
  rw [List.eq_of_mem_replicate member]
  rfl

private theorem noted_rootItems (closer : Token) (items : List Form) :
    (rootItems closer items).noted = [] := by
  apply Attempt.noted_bind_eq_nil (Attempt.noted_expect _ _)
  intro name
  split <;> rfl

private theorem unclosed_mem_checkEnd (behind : List Token) (ends : closer.kind = .eof) :
    ⟨.unclosed Schema.rootForm, closer.start⟩ ∈ (checkEnd closer behind).noted := by
  simp [checkEnd, Token.isEnd, ends, Attempt.note]

theorem roots_of_ofForm {n : Nat} (inner : ∀ t ∈ front, t.kind ≠ .eof)
    (shaped : (Form.list opener items closer).Shaped)
    (tokens : (Form.list opener items closer).tokens ++ behind =
      front ++ List.replicate n (Token.eof p))
    (read : (ofForm behind (.list opener items closer)).outcome = .value d) :
    Roots front p (ofForm behind (.list opener items closer)).faults d opener items closer := by
  have inside : (Form.list opener items closer).tokens <:+:
      front ++ List.replicate n (Token.eof p) := by
    rw [← tokens]
    exact (List.prefix_append _ behind).isInfix
  have among := among_of_infix shaped inside
  have quiet : (ofForm behind (.list opener items closer)).faults = [] →
      (ofForm behind (.list opener items closer)).succeeds = true := by
    intro none
    rw [Attempt.faults_of_value read] at none
    simp [Attempt.succeeds, Attempt.value?_eq_some.mpr read, none]
  obtain ⟨rest, root, later, success⟩ := Attempt.of_bind_value read
  obtain ⟨found, stated, later', success'⟩ := Attempt.of_bind_value later
  obtain ⟨⟨⟩, checked, later'', success''⟩ := Attempt.of_bind_value later'
  obtain ⟨location, placed, same, -⟩ := Attempt.of_bind_value later''
  obtain rfl := Outcome.value.inj same
  obtain ⟨name, rfl, symbol, -⟩ :=
    rootItems_eq_pure shaped (Attempt.eq_pure_of_value (noted_rootItems closer items) root)
  refine ⟨shaped, ⟨n, inside⟩, ?location, ?surveyed, ?closed, ?whole⟩
  case location => exact congrArg some (Attempt.location_of_place placed)
  case surveyed =>
    have others : ∀ form ∈ rest, form.Among front :=
      fun form member => among.item (List.mem_cons_of_mem _ member)
    have surveyed := surveyed_entries inner others location
    rw [entries_eq (settles_of_entries stated)] at stated
    obtain rfl := Outcome.value.inj stated
    refine Surveyed.skip (Charted.atoms (by simp [Form.tokens, symbol])) (surveyed.mono ?_)
    exact fun none => succeeds_entries_iff.mp (success' (success (quiet none)).2).1
  case closed =>
    intro none
    refine shaped.2.1.resolve_right fun ends => ?_
    refine none ⟨.unclosed Schema.rootForm, closer.start⟩ ?_ rfl
    rw [Attempt.faults_of_value read, ofForm, Attempt.noted_bind_of_value root,
      Attempt.noted_bind_of_value stated, Attempt.noted_bind_of_value checked]
    simp [unclosed_mem_checkEnd behind ends]
  case whole =>
    intro none
    obtain ⟨⟨⟩, checked⟩ :=
      Attempt.succeeds_iff.mp (success'' (success' (success (quiet none)).2).2).1
    obtain ⟨notEnd, rfl⟩ := checkEnd_eq_pure checked
    have inFront := (among.closed inner (shaped.2.1.resolve_right notEnd)).2
    have lengths := congrArg List.length tokens
    have bound := inFront.length_le
    simp only [List.append_nil, List.length_append, List.length_replicate] at lengths
    obtain rfl : n = 0 := by omega
    simpa using tokens

theorem exists_roots {limit : Int} (inner : ∀ t ∈ front, t.kind ≠ .eof)
    (read : (ofTokens limit (front ++ [Token.eof p])).outcome = .value d) :
    ∃ opener items closer,
      Roots front p (ofTokens limit (front ++ [Token.eof p])).faults d opener items closer := by
  unfold ofTokens at read ⊢
  split at read
  · cases read
  · simp only at read ⊢
    cases front with
    | nil =>
        rw [rootForm, Balance.beforeEnd_concat_eof inner] at read
        cases read
    | cons t rest =>
        by_cases opens : t.kind = .openParen
        · obtain ⟨items, closer, behind, n, root, shaped, tokens, -⟩ :=
            rootForm_of_opens (p := p) inner opens
          rw [root] at read ⊢
          exact ⟨t, items, closer, roots_of_ofForm inner shaped tokens read⟩
        · rw [rootForm, Balance.beforeEnd_concat_eof inner] at read
          simp only [opens, if_false] at read
          cases read

end Document

namespace Landmark

variable {front : List Token} {l : Landmark}

theorem Anchored.stands (anchored : l.Anchored front) : ∃ form : Form, form.StandsAs front l := by
  cases anchored with
  | list opener items closer stands => exact ⟨_, stands⟩
  | wrapper form r stands => exact ⟨form, stands⟩

theorem Anchored.inside (anchored : l.Anchored front) (ordered : Token.InOrder front) :
    ∀ list ∈ l.lists, ∀ m ∈ list,
      if l.isWrapper then m.location = l.location else m.Inside l.location := by
  intro list isList m member
  cases anchored with
  | list opener items closer stands own underlie =>
      obtain ⟨form, isItem, there⟩ := (underlie list isList).exists_form m member
      obtain ⟨opens, closes, -⟩ := Form.closed_list_iff.mp stands.closed.1
      rw [own, if_neg (by simp), stands.location, Token.span_tokens]
      exact there.inside_list isItem (ordered.sublist stands.inside.sublist) opens closes
  | wrapper form r stands shared only location =>
      obtain rfl : list = [.repetition r] := by simpa [only] using isList
      obtain rfl := List.mem_singleton.mp member
      rw [if_pos shared]
      exact location

/-- The nodes of a list directly inside a node stand in order. -/
theorem Anchored.pairwise_before (anchored : l.Anchored front) (ordered : Token.InOrder front) :
    ∀ list ∈ l.lists, list.Pairwise Before := by
  intro list isList
  cases anchored with
  | list opener items closer stands own underlie =>
      have within := (Form.tokensAll_infix_tokens opener items closer).trans stands.inside
      exact (underlie list isList).pairwise_before (ordered.sublist within.sublist)
  | wrapper form r stands shared only location =>
      obtain rfl : list = [.repetition r] := by simpa [only] using isList
      exact List.pairwise_singleton _ _

end Landmark

namespace Document

/-- Whether the places of the nodes of a document mirror its tree, given the tokens and the faults
of its source. -/
structure Mirrors (tokens : List Token) (faults : List Fault) (d : Document) : Prop where
  /-- A node has the place of tokens from an opening parenthesis to the one that matches it. -/
  sited : ∀ l ∈ d.landmarks, ∃ row,
    row <:+: tokens ∧ Token.Enclosed row ∧ l.location = Token.span row
  /-- A node directly inside another one has its place inside that of the other, but for a
  repetition in a container that was put around it. -/
  inside : ∀ l ∈ d.landmarks, ∀ list ∈ l.lists, ∀ m ∈ list,
    if l.isWrapper then m.location = l.location else m.Inside l.location
  /-- A node directly inside the document has its place within that of the document, and inside it
  unless the document is not closed. -/
  within : ∀ list ∈ d.lists, ∀ m ∈ list, m.Within d.location ∧
    ((∀ f ∈ faults, f.cause ≠ .unclosed Schema.rootForm) → m.Inside d.location)
  /-- The nodes of a list stand one behind the other. -/
  ordered : ∀ list ∈ d.lists ++ d.landmarks.flatMap Landmark.lists, list.Pairwise Landmark.Before
  /-- No two nodes start at the same parenthesis. -/
  distinct : d.starts.Nodup
  /-- Without faults, exactly one node starts at each opening parenthesis, but for those of facts
  and parameter lists. -/
  complete : faults = [] → ∀ before t behind, tokens = before ++ t :: behind →
    t.kind = .openParen → Token.opensNoNode before behind = false → d.starts.count t.start = 1

namespace Roots

variable {front : List Token} {opener closer : Token} {items : List Form} {d : Document}
  {p : Position} {faults : List Fault} (roots : Roots front p faults d opener items closer)
  (ordered : ∀ n, Token.InOrder (front ++ List.replicate n (Token.eof p)))

include roots

theorem count_starts (q : Position) : d.starts.count q =
    (if opener.start = q then 1 else 0) + d.landmarks.countP (·.start? == some q) := by
  rw [starts, List.count_append, roots.location, List.count_filterMap]
  simp [List.count_cons]

include ordered

theorem inOrder : Token.InOrder (Form.list opener items closer).tokens := by
  obtain ⟨n, inside⟩ := roots.inside
  exact (ordered n).sublist inside.sublist

theorem within : ∀ list ∈ d.lists, ∀ m ∈ list, m.Within d.location ∧
    ((∀ f ∈ faults, f.cause ≠ .unclosed Schema.rootForm) → m.Inside d.location) := by
  intro list isList m member
  obtain ⟨form, isItem, stands⟩ := (roots.surveyed.underlie list isList).exists_form m member
  have inOrder := roots.inOrder ordered
  rw [roots.location]
  refine ⟨stands.within_list isItem inOrder roots.shaped.1, fun none => ?_⟩
  exact stands.inside_list isItem inOrder roots.shaped.1 (roots.closed none)

theorem nodup_starts : d.starts.Nodup := by
  refine List.nodup_iff_count_le_one.mpr fun q => ?_
  have ends : closer.kind ≠ .openParen := by
    rcases roots.shaped.2.1 with closes | ends
    · simp [closes]
    · simp [ends]
  have charted := roots.surveyed.charted.starts q
  have once := (roots.inOrder ordered).countP_opensAt_le_one q
  rw [Token.countP_opensAt_list roots.shaped.1 ends] at once
  rw [roots.count_starts, landmarks]
  omega

/-- Without faults, a node starts at every opening parenthesis that opens one. -/
theorem mem_starts (none : faults = []) {before behind : List Token} {t : Token}
    (split : front = before ++ t :: behind) (opens : t.kind = .openParen)
    (node : Token.opensNoNode before behind = false) : t.start ∈ d.starts := by
  have whole := roots.whole none
  have cases : t = opener ∨ t ∈ Form.tokensAll items ∨ t = closer := by
    have member : t ∈ (Form.list opener items closer).tokens := by
      rw [whole, split]
      simp
    simpa [Form.tokens] using member
  rcases cases with rfl | inItems | rfl
  · exact List.mem_append_left _ (by simp [roots.location])
  · rcases roots.surveyed.charted.complete none t inItems opens with nodeless | ⟨l, isNode, start⟩
    · obtain ⟨before', behind', split', opensNone⟩ := nodeless
      have inOrder : Token.InOrder front := by simpa using ordered 0
      obtain ⟨rfl, rfl⟩ := inOrder.split_unique opens split split'
      exact absurd opensNone (by simp [node])
    · exact List.mem_append_right _ (List.mem_filterMap.mpr ⟨l, isNode, start⟩)
  · rcases roots.shaped.2.1 with closes | ends
    · exact absurd (opens.symm.trans closes) (by decide)
    · exact absurd (opens.symm.trans ends) (by decide)

theorem mirrors : d.Mirrors (front ++ [Token.eof p]) faults := by
  have inOrder : Token.InOrder front := by simpa using ordered 0
  have anchored : ∀ l ∈ d.landmarks, l.Anchored front := roots.surveyed.charted.anchored
  refine ⟨?sited, ?inside, roots.within ordered, ?ordered, roots.nodup_starts ordered, ?complete⟩
  case sited =>
    intro l member
    obtain ⟨form, stands⟩ := (anchored l member).stands
    refine ⟨form.tokens, stands.inside.trans (List.prefix_append _ _).isInfix, ?_, stands.location⟩
    exact Token.enclosed_iff.mpr ⟨form, stands.closed, rfl⟩
  case inside =>
    intro l member
    exact (anchored l member).inside inOrder
  case ordered =>
    intro list member
    rcases List.mem_append.mp member with top | inner
    · have items := (Form.tokensAll_infix_tokens opener items closer).sublist
      exact (roots.surveyed.underlie list top).pairwise_before
        ((roots.inOrder ordered).sublist items)
    · obtain ⟨l, isNode, isList⟩ := List.mem_flatMap.mp inner
      exact (anchored l isNode).pairwise_before inOrder list isList
  case complete =>
    intro none before t behind split opens node
    rcases List.eq_nil_or_concat behind with rfl | ⟨behind', last, rfl⟩
    · have ended := (List.append_inj' split rfl).2
      obtain rfl : Token.eof p = t := by simpa using ended
      cases opens
    · rw [List.concat_eq_append, ← List.cons_append, ← List.append_assoc] at split
      obtain ⟨inFront, ended⟩ := List.append_inj' split rfl
      obtain rfl : Token.eof p = last := by simpa using ended
      rw [List.concat_eq_append, Token.opensNoNode_concat_eof] at node
      have atMost := List.nodup_iff_count_le_one.mp (roots.nodup_starts ordered) t.start
      have atLeast := List.one_le_count_iff.mpr
        (roots.mem_starts ordered none inFront opens node)
      omega

end Roots

/-- The places of the nodes of a document mirror its tree, whatever is wrong with its source. -/
theorem ofSource_mirrors {limit : Int} {source : String} {d : Document}
    (read : (ofSource limit source).outcome = .value d) :
    ∃ tokens, Token.ofSource source = .ok tokens ∧
      d.Mirrors tokens (ofSource limit source).faults := by
  unfold ofSource at read ⊢
  split at read
  · rename_i tokens found
    obtain ⟨front, p, rfl, inner, ordered⟩ := Token.inOrder_of_ofSource found
    obtain ⟨opener, items, closer, roots⟩ := exists_roots inner read
    exact ⟨_, found, roots.mirrors ordered⟩
  · cases read

/-- The parentheses of the facts and of the parameter list start no node. -/
theorem ofSource_mirrors_define : ∃ d tokens,
    (ofSource 9
      "(wire (meta :a) (define c (p) (x)) (screen s (repeat (y)) (modal :id m)))").outcome =
        .value d ∧
      d.starts = [⟨1, 1⟩, ⟨1, 17⟩, ⟨1, 31⟩, ⟨1, 36⟩, ⟨1, 46⟩, ⟨1, 54⟩, ⟨1, 59⟩] ∧
      Token.ofSource "(wire (meta :a) (define c (p) (x)) (screen s (repeat (y)) (modal :id m)))" =
        .ok tokens ∧
      d.Mirrors tokens (ofSource 9
        "(wire (meta :a) (define c (p) (x)) (screen s (repeat (y)) (modal :id m)))").faults := by
  have found : Token.ofSource
      "(wire (meta :a) (define c (p) (x)) (screen s (repeat (y)) (modal :id m)))" =
      .ok [⟨.openParen, "(", ⟨1, 1⟩, ⟨1, 2⟩⟩, ⟨.symbol, "wire", ⟨1, 2⟩, ⟨1, 6⟩⟩,
        ⟨.openParen, "(", ⟨1, 7⟩, ⟨1, 8⟩⟩, ⟨.symbol, "meta", ⟨1, 8⟩, ⟨1, 12⟩⟩,
        ⟨.keyword, "a", ⟨1, 13⟩, ⟨1, 15⟩⟩, ⟨.closeParen, ")", ⟨1, 15⟩, ⟨1, 16⟩⟩,
        ⟨.openParen, "(", ⟨1, 17⟩, ⟨1, 18⟩⟩, ⟨.symbol, "define", ⟨1, 18⟩, ⟨1, 24⟩⟩,
        ⟨.symbol, "c", ⟨1, 25⟩, ⟨1, 26⟩⟩, ⟨.openParen, "(", ⟨1, 27⟩, ⟨1, 28⟩⟩,
        ⟨.symbol, "p", ⟨1, 28⟩, ⟨1, 29⟩⟩, ⟨.closeParen, ")", ⟨1, 29⟩, ⟨1, 30⟩⟩,
        ⟨.openParen, "(", ⟨1, 31⟩, ⟨1, 32⟩⟩, ⟨.symbol, "x", ⟨1, 32⟩, ⟨1, 33⟩⟩,
        ⟨.closeParen, ")", ⟨1, 33⟩, ⟨1, 34⟩⟩, ⟨.closeParen, ")", ⟨1, 34⟩, ⟨1, 35⟩⟩,
        ⟨.openParen, "(", ⟨1, 36⟩, ⟨1, 37⟩⟩, ⟨.symbol, "screen", ⟨1, 37⟩, ⟨1, 43⟩⟩,
        ⟨.symbol, "s", ⟨1, 44⟩, ⟨1, 45⟩⟩, ⟨.openParen, "(", ⟨1, 46⟩, ⟨1, 47⟩⟩,
        ⟨.symbol, "repeat", ⟨1, 47⟩, ⟨1, 53⟩⟩, ⟨.openParen, "(", ⟨1, 54⟩, ⟨1, 55⟩⟩,
        ⟨.symbol, "y", ⟨1, 55⟩, ⟨1, 56⟩⟩, ⟨.closeParen, ")", ⟨1, 56⟩, ⟨1, 57⟩⟩,
        ⟨.closeParen, ")", ⟨1, 57⟩, ⟨1, 58⟩⟩, ⟨.openParen, "(", ⟨1, 59⟩, ⟨1, 60⟩⟩,
        ⟨.symbol, "modal", ⟨1, 60⟩, ⟨1, 65⟩⟩, ⟨.keyword, "id", ⟨1, 66⟩, ⟨1, 69⟩⟩,
        ⟨.symbol, "m", ⟨1, 70⟩, ⟨1, 71⟩⟩, ⟨.closeParen, ")", ⟨1, 71⟩, ⟨1, 72⟩⟩,
        ⟨.closeParen, ")", ⟨1, 72⟩, ⟨1, 73⟩⟩, ⟨.closeParen, ")", ⟨1, 73⟩, ⟨1, 74⟩⟩,
        Token.eof ⟨1, 74⟩] := by
    cbv
  have started : (ofSource 9
      "(wire (meta :a) (define c (p) (x)) (screen s (repeat (y)) (modal :id m)))").value?.map
        starts = some [⟨1, 1⟩, ⟨1, 17⟩, ⟨1, 31⟩, ⟨1, 36⟩, ⟨1, 46⟩, ⟨1, 54⟩, ⟨1, 59⟩] := by
    rw [ofSource, found]
    decide +kernel
  obtain ⟨d, value, same⟩ := Option.map_eq_some_iff.mp started
  have read := Attempt.value?_eq_some.mp value
  obtain ⟨tokens, found, mirrors⟩ := ofSource_mirrors read
  exact ⟨d, tokens, read, same, found, mirrors⟩

end Document
end Wireframe
