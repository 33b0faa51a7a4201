import Mathlib.Data.List.Forall2
import Wireframe.Proofs.Bare
import Wireframe.Proofs.Word

/-!
# Sources of the same words

Tokens are alike if they are the same word, wherever they stand.  Alike tokens are nested into alike
forms.  Attempts are alike if they note the same faults and what they read is related; attempts made
of alike parts are alike.
-/

namespace Wireframe

/-- Two tokens are alike if they are the same word and either both or neither starts at a place that
a source has. -/
structure Token.Alike (t u : Token) : Prop where
  word : t.word = u.word
  proper : t.start.isProper = u.start.isProper

namespace Token.Alike

variable {t u : Token}

theorem kind (same : t.Alike u) : t.kind = u.kind :=
  congrArg Word.kind same.word

theorem value (same : t.Alike u) : t.value = u.value :=
  congrArg Word.value same.word

theorem text (same : t.Alike u) : t.text = u.text := by
  rw [Token.text, Token.text, same.kind, same.value]

end Token.Alike

/-- Tokens of the same words at places of a source are alike. -/
theorem Token.forall₂_alike {tokens tokens' : List Token}
    (words : tokens.map Token.word = tokens'.map Token.word)
    (proper : ∀ t ∈ tokens, t.start.isProper) (proper' : ∀ t ∈ tokens', t.start.isProper) :
    List.Forall₂ Token.Alike tokens tokens' := by
  induction tokens generalizing tokens' with
  | nil =>
      obtain rfl : tokens' = [] := List.map_eq_nil_iff.mp words.symm
      exact .nil
  | cons t rest ih =>
      obtain ⟨u, rest', rfl, word, words⟩ := List.map_eq_cons_iff.mp words.symm
      obtain ⟨here, later⟩ := List.forall_mem_cons.mp proper
      obtain ⟨here', later'⟩ := List.forall_mem_cons.mp proper'
      exact .cons ⟨word.symm, here.trans here'.symm⟩ (ih words.symm later later')

namespace Form

mutual

/-- Two forms are alike if their tokens are. -/
inductive Alike : Form → Form → Prop where
  | atom {t u : Token} (word : t.Alike u) : Alike (.atom t) (.atom u)
  | list {opener opener' closer closer' : Token} {items items' : List Form}
      (opens : opener.Alike opener') (inner : AllAlike items items')
      (closes : closer.Alike closer') :
      Alike (.list opener items closer) (.list opener' items' closer')

/-- Two lists of forms are alike if their forms are, one by one. -/
inductive AllAlike : List Form → List Form → Prop where
  | nil : AllAlike [] []
  | cons {form form' : Form} {rest rest' : List Form} (head : Alike form form')
      (tail : AllAlike rest rest') : AllAlike (form :: rest) (form' :: rest')

end

theorem allAlike_of_forall₂ {forms forms' : List Form} (same : List.Forall₂ Alike forms forms') :
    AllAlike forms forms' := by
  induction same with
  | nil => exact .nil
  | cons head tail ih => exact .cons head ih

theorem Alike.first {form form' : Form} (same : form.Alike form') :
    form.first.Alike form'.first := by
  cases same with
  | atom word => exact word
  | list opens inner closes => exact opens

end Form

namespace OpenList

/-- Two open lists are alike if their tokens are. -/
structure Alike (l m : OpenList) : Prop where
  opener : l.opener.Alike m.opener
  items : List.Forall₂ Form.Alike l.items m.items

variable {l m : OpenList}

theorem Alike.add (same : l.Alike m) {form form' : Form} (item : form.Alike form') :
    (l.add form).Alike (m.add form') :=
  ⟨same.opener, .cons item same.items⟩

theorem Alike.close (same : l.Alike m) {t u : Token} (closer : t.Alike u) :
    (l.close t).Alike (m.close u) :=
  .list same.opener (Form.allAlike_of_forall₂ (List.rel_reverse same.items)) closer

theorem Alike.closeAll {eof eof' : Token} (ends : eof.Alike eof') {outer outer' : List OpenList}
    (around : List.Forall₂ Alike outer outer') (same : l.Alike m) :
    (OpenList.closeAll eof l outer).Alike (OpenList.closeAll eof' m outer') := by
  induction around generalizing l m with
  | nil => exact same.close ends
  | cons head tail ih => exact ih (head.add (same.close ends))

/-- Alike tokens are nested into alike forms. -/
theorem Alike.read {eof eof' : Token} (ends : eof.Alike eof') {tokens tokens' : List Token}
    (words : List.Forall₂ Token.Alike tokens tokens') {outer outer' : List OpenList}
    (around : List.Forall₂ Alike outer outer') (same : l.Alike m) :
    (OpenList.read eof l outer tokens).1.Alike (OpenList.read eof' m outer' tokens').1 ∧
      List.Forall₂ Token.Alike (OpenList.read eof l outer tokens).2
        (OpenList.read eof' m outer' tokens').2 := by
  induction words generalizing l m outer outer' with
  | nil => exact ⟨same.closeAll ends around, .nil⟩
  | @cons t u rest rest' word tail ih =>
      rw [OpenList.read.eq_def, OpenList.read.eq_def eof' m outer' (u :: rest')]
      simp only [← word.kind]
      cases t.kind with
      | openParen => exact ih (.cons same around) ⟨word, .nil⟩
      | closeParen =>
          cases around with
          | nil => exact ⟨same.close word, tail⟩
          | cons parent around => exact ih around (parent.add (same.close word))
      | _ => exact ih around (same.add (.atom word))

end OpenList

/-- Two outcomes are alike if they are related values, faults of one cause, or the same
rejection. -/
def Outcome.Alike {α : Type} (R : α → α → Prop) : Outcome α → Outcome α → Prop
  | value a, value b => R a b
  | fault f, fault g => f.cause = g.cause
  | refused r, refused s => r = s
  | _, _ => False

namespace Attempt

variable {α β : Type} {Φ Ψ : Fault → Prop} {R : α → α → Prop} {S : β → β → Prop}

/-- Two attempts are alike if they note faults of the same causes and what comes of them is alike.
What relates their values may speak of the faults noted, which are taken to be of given classes; it
is only asked for if they are. -/
def Alike (Φ Ψ : Fault → Prop) (R : α → α → Prop) (x y : Attempt α) : Prop :=
  (∀ f ∈ x.noted, Φ f) → (∀ f ∈ y.noted, Ψ f) →
    x.noted.map Fault.cause = y.noted.map Fault.cause ∧ x.outcome.Alike R y.outcome

theorem Alike.refl (same : ∀ a, R a a) (x : Attempt α) : x.Alike Φ Ψ R x := by
  intro _ _
  refine ⟨rfl, ?_⟩
  cases x.outcome with
  | value a => exact same a
  | fault f => rfl
  | refused r => rfl

theorem Alike.pure {a b : α} (related : R a b) : Alike Φ Ψ R (Pure.pure a) (Pure.pure b) :=
  fun _ _ => ⟨rfl, related⟩

theorem Alike.fail {cause : FaultCause} {t u : Token} :
    Alike Φ Ψ R (Attempt.fail cause t) (Attempt.fail cause u) :=
  fun _ _ => ⟨rfl, rfl⟩

theorem Alike.note {cause : FaultCause} {t u : Token} :
    Alike Φ Ψ Eq (Attempt.note cause t) (Attempt.note cause u) :=
  fun _ _ => ⟨rfl, rfl⟩

/-- Alike attempts go on alike. -/
theorem Alike.bind {x y : Attempt α} {f g : α → Attempt β} (before : x.Alike Φ Ψ R y)
    (later : ∀ a b, R a b → (f a).Alike Φ Ψ S (g b)) : (x >>= f).Alike Φ Ψ S (y >>= g) := by
  obtain ⟨noted, outcome⟩ := x
  obtain ⟨noted', outcome'⟩ := y
  intro inΦ inΨ
  cases outcome with
  | value a =>
      cases outcome' with
      | value b =>
          obtain ⟨early, late⟩ := List.forall_mem_append.mp inΦ
          obtain ⟨early', late'⟩ := List.forall_mem_append.mp inΨ
          obtain ⟨causes, related⟩ := before early early'
          obtain ⟨causes', related'⟩ := later a b related late late'
          refine ⟨?_, related'⟩
          change (noted ++ (f a).noted).map Fault.cause = (noted' ++ (g b).noted).map Fault.cause
          rw [List.map_append, List.map_append, causes', ← causes]
      | fault g' => exact absurd (before (List.forall_mem_append.mp inΦ).1 inΨ).2 id
      | refused s => exact absurd (before (List.forall_mem_append.mp inΦ).1 inΨ).2 id
  | fault f' =>
      cases outcome' with
      | value b => exact absurd (before inΦ (List.forall_mem_append.mp inΨ).1).2 id
      | fault g' => exact before inΦ inΨ
      | refused s => exact absurd (before inΦ inΨ).2 id
  | refused r =>
      cases outcome' with
      | value b => exact absurd (before inΦ (List.forall_mem_append.mp inΨ).1).2 id
      | fault g' => exact absurd (before inΦ inΨ).2 id
      | refused s => exact before inΦ inΨ

theorem Alike.bind_same {x y : Attempt α} {f g : α → Attempt β} (before : x.Alike Φ Ψ Eq y)
    (later : ∀ a, (f a).Alike Φ Ψ S (g a)) : (x >>= f).Alike Φ Ψ S (y >>= g) := by
  refine before.bind fun a b same => ?_
  rw [same]
  exact later b

theorem Alike.recover {x y : Attempt α} (same : x.Alike Φ Ψ R y) :
    x.recover.Alike Φ Ψ (Option.Rel R) y.recover := by
  obtain ⟨noted, outcome⟩ := x
  obtain ⟨noted', outcome'⟩ := y
  intro inΦ inΨ
  cases outcome with
  | value a =>
      cases outcome' with
      | value b =>
          obtain ⟨causes, related⟩ := same inΦ inΨ
          exact ⟨causes, .some related⟩
      | fault g => exact absurd (same inΦ (List.forall_mem_append.mp inΨ).1).2 id
      | refused s => exact absurd (same inΦ inΨ).2 id
  | fault f =>
      cases outcome' with
      | value b => exact absurd (same (List.forall_mem_append.mp inΦ).1 inΨ).2 id
      | fault g =>
          obtain ⟨causes, related⟩ :=
            same (List.forall_mem_append.mp inΦ).1 (List.forall_mem_append.mp inΨ).1
          refine ⟨?_, .none⟩
          change (noted ++ [f]).map Fault.cause = (noted' ++ [g]).map Fault.cause
          rw [List.map_append, List.map_append, causes]
          exact congrArg (noted'.map Fault.cause ++ [·]) related
      | refused s => exact absurd (same (List.forall_mem_append.mp inΦ).1 inΨ).2 id
  | refused r =>
      cases outcome' with
      | value b => exact absurd (same inΦ inΨ).2 id
      | fault g => exact absurd (same inΦ (List.forall_mem_append.mp inΨ).1).2 id
      | refused s => exact same inΦ inΨ

/-- Behind a note, attempts go on with the knowledge that it is of the classes. -/
theorem Alike.note_bind {cause : FaultCause} {t u : Token} {f g : Unit → Attempt α}
    (same : Φ ⟨cause, t.start⟩ → Ψ ⟨cause, u.start⟩ → (f ()).Alike Φ Ψ R (g ())) :
    (Attempt.note cause t >>= f).Alike Φ Ψ R (Attempt.note cause u >>= g) := by
  intro inΦ inΨ
  have here := inΦ ⟨cause, t.start⟩ (by simp)
  have here' := inΨ ⟨cause, u.start⟩ (by simp)
  exact Alike.note.bind_same (fun _ => same here here') inΦ inΨ

/-- What an attempt without faults reads is read by every attempt alike, up to what relates
them. -/
theorem Alike.eq_pure {x : Attempt α} {a : α} (same : Alike Φ (fun _ => True) R (Pure.pure a) x) :
    ∃ b, x = Pure.pure b ∧ R a b := by
  obtain ⟨causes, related⟩ := same (by simp) (by simp)
  obtain ⟨noted, outcome⟩ := x
  cases outcome with
  | value b =>
      obtain rfl : noted = [] := List.map_eq_nil_iff.mp causes.symm
      exact ⟨b, rfl, related⟩
  | fault f => exact absurd related id
  | refused r => exact absurd related id

/-- What ends an attempt ends every attempt alike. -/
theorem Alike.eq_fail {cause : FaultCause} {t : Token} {x : Attempt α}
    (same : Alike Φ (fun _ => True) R (Attempt.fail cause t) x) :
    ∃ p, x = ⟨[], .fault ⟨cause, p⟩⟩ := by
  obtain ⟨causes, related⟩ := same (by simp [Attempt.fail]) (by simp)
  obtain ⟨noted, outcome⟩ := x
  obtain rfl : noted = [] := List.map_eq_nil_iff.mp causes.symm
  cases outcome with
  | value b => exact absurd related id
  | fault f =>
      obtain rfl : cause = f.cause := related
      exact ⟨f.position, rfl⟩
  | refused r => exact absurd related id

theorem Alike.unexpected {wanted : TokenKind} {t u : Token} (word : t.Alike u) :
    Alike Φ Ψ R (Attempt.unexpected wanted t) (Attempt.unexpected wanted u) := by
  rw [Attempt.unexpected, Attempt.unexpected, word.kind, word.value]
  exact .fail

theorem Alike.expect {wanted : TokenKind} {t u : Token} (word : t.Alike u) :
    Alike Φ Ψ Token.Alike (Attempt.expect wanted t) (Attempt.expect wanted u) := by
  rw [Attempt.expect, Attempt.expect, word.kind]
  split
  · exact .pure word
  · exact .unexpected word

theorem Alike.place {opener opener' closer closer' : Token} (word : opener.Alike opener') :
    Alike Φ Ψ (fun l l' => l.start = opener.start ∧ l'.start = opener'.start)
      (Attempt.place opener closer) (Attempt.place opener' closer') := by
  rw [Attempt.place, Attempt.place, word.proper]
  split
  · exact .pure ⟨rfl, rfl⟩
  · exact fun _ _ => ⟨rfl, rfl⟩

end Attempt
end Wireframe
