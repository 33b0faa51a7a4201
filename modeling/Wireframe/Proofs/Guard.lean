import Wireframe.Proofs.Descent
import Wireframe.Proofs.Locality

/-!
# The nesting guard

Before a document is read, its tokens are held against a limit to the nesting of lists.  If they
exceed it, the first parenthesis at which they do is reported, and nothing else is.  If they do not,
neither does the form that they are read into: the lists that are open while it is read are those
that the guard counts, for a closing parenthesis is surplus only where no list is left to be read.
-/

namespace Wireframe

namespace FaultCause

/-- No message about a form is that of lists nested too deeply. -/
theorem message_ne_of_isOfForms {cause : FaultCause} (ofForms : cause.isOfForms = true) :
    cause.message ≠ "Maximum nesting depth exceeded" := by
  have plain (s : String) : toString s = s := rfl
  intro same
  have letters : cause.message.toList.take 2 = ['M', 'a'] := by simp [same]
  -- Unfolded as a whole: the equations of so many messages take too long to derive.
  delta FaultCause.message at letters
  cases cause with
  | lexical cause => cases ofForms
  | tooDeep => cases ofForms
  | missingId kind => cases kind <;> simp [plain, OverlayKind.name] at letters
  | _ => simp [plain] at letters

end FaultCause

namespace Token

variable {limit : Int} {tokens front : List Token} {t : Token} {n : Nat}

/-- Whether an opening parenthesis is the first at which more lists are open than a limit allows,
given the tokens before it. -/
structure FirstBeyond (limit : Int) (front : List Token) (t : Token) : Prop where
  opens : t.kind = .openParen
  beyond : limit < depth 0 front + 1
  first : ¬Exceeds limit front

theorem split_of_tooDeep? (found : tooDeep? limit n tokens = some t) :
    ∃ front back, tokens = front ++ t :: back ∧ t.kind = .openParen ∧
      limit < depth n front + 1 ∧ tooDeep? limit n front = none := by
  fun_induction tooDeep? limit n tokens with
  | case1 => cases found
  | case2 n u rest opens deep =>
      obtain rfl := Option.some.inj found
      exact ⟨[], rest, rfl, opens, deep, rfl⟩
  | case3 n u rest opens shallow ih =>
      obtain ⟨front, back, rfl, here, deep, before⟩ := ih found
      exact ⟨u :: front, back, rfl, here, by simpa [depth, opens] using deep,
        by simpa [tooDeep?, opens, shallow] using before⟩
  | case4 n u rest closes ih =>
      obtain ⟨front, back, rfl, here, deep, before⟩ := ih found
      exact ⟨u :: front, back, rfl, here, by simpa [depth, closes] using deep,
        by simpa [tooDeep?, closes] using before⟩
  | case5 n u rest opens closes ih =>
      obtain ⟨front, back, rfl, here, deep, before⟩ := ih found
      exact ⟨u :: front, back, rfl, here, by simpa [depth, opens, closes] using deep,
        by simpa [tooDeep?, opens, closes] using before⟩

theorem firstBeyond_of_tooDeep? (found : tooDeep? limit 0 tokens = some t) :
    ∃ front back, tokens = front ++ t :: back ∧ FirstBeyond limit front t := by
  obtain ⟨front, back, split, opens, beyond, before⟩ := split_of_tooDeep? found
  exact ⟨front, back, split, opens, beyond, tooDeep?_eq_none.mp before⟩

theorem tooDeep?_cons_openParen {rest : List Token} (opens : t.kind = .openParen) :
    tooDeep? limit n (t :: rest) = none ↔
      (n + 1 : Int) ≤ limit ∧ tooDeep? limit (n + 1) rest = none := by
  rw [tooDeep?]
  simp only [opens]
  by_cases deep : limit < (n : Int) + 1
  · have full : ¬(n + 1 : Int) ≤ limit := Int.not_le.mpr deep
    simp [deep, full]
  · have room : (n + 1 : Int) ≤ limit := Int.not_lt.mp deep
    simp [deep, room]

theorem tooDeep?_beforeEnd (shallow : tooDeep? limit n tokens = none) :
    tooDeep? limit n (beforeEnd tokens) = none := by
  obtain ⟨behind, split⟩ := List.takeWhile_prefix (l := tokens) (!·.isEnd)
  rw [← split, tooDeep?_append, Option.or_eq_none_iff] at shallow
  exact shallow.1

end Token

namespace OpenList

variable {limit : Int} {l parent : OpenList} {outer : List OpenList}

/-- Whether open lists, innermost first, have no forms nested deeper than a limit. -/
def Fits (limit : Int) : List OpenList → Prop
  | [] => True
  | l :: outer => (outer.length + 1 + Form.depthAll l.items : Int) ≤ limit ∧ Fits limit outer

theorem depth_close (l : OpenList) (closer : Token) :
    (l.close closer).depth = Form.depthAll l.items + 1 := by
  have same : Form.depthAll l.items.reverse = Form.depthAll l.items := by
    apply Nat.le_antisymm <;> exact Form.depthAll_le_iff.mpr fun form member =>
      Form.depth_le_of_mem (by simpa using member)
  rw [close, Form.depth, same]

theorem Fits.add {item : Form} (fits : Fits limit (l :: outer))
    (here : (outer.length + 1 + item.depth : Int) ≤ limit) : Fits limit (l.add item :: outer) := by
  obtain ⟨inner, around⟩ := fits
  refine ⟨?_, around⟩
  rw [OpenList.add, Form.depthAll]
  omega

theorem Fits.close (fits : Fits limit (l :: parent :: outer)) (closer : Token) :
    Fits limit (parent.add (l.close closer) :: outer) := by
  refine Fits.add fits.2 ?_
  have inner := fits.1
  rw [List.length_cons] at inner
  rw [depth_close]
  omega

theorem Fits.depth_close_le (fits : Fits limit [l]) (closer : Token) :
    ((l.close closer).depth : Int) ≤ limit := by
  have inner := fits.1
  rw [List.length_nil] at inner
  rw [depth_close]
  omega

theorem Fits.depth_closeAll_le (eof : Token) (fits : Fits limit (l :: outer)) :
    ((closeAll eof l outer).depth : Int) ≤ limit := by
  induction outer generalizing l with
  | nil => exact fits.depth_close_le eof
  | cons parent outer ih => exact ih (fits.close eof)

/-- Tokens that the guard passes are read into forms within the limit. -/
theorem Fits.depth_read_le (eof : Token) {ts : List Token} (fits : Fits limit (l :: outer))
    (shallow : Token.tooDeep? limit (outer.length + 1) ts = none) :
    ((read eof l outer ts).1.depth : Int) ≤ limit := by
  induction ts generalizing l outer with
  | nil => exact fits.depth_closeAll_le eof
  | cons t rest ih =>
      rcases Balance.paren_cases t with opens | closes | ⟨opens, closes⟩
      · obtain ⟨room, later⟩ := (Token.tooDeep?_cons_openParen opens).mp shallow
        have entered : Fits limit (⟨t, []⟩ :: l :: outer) := by
          refine ⟨?_, fits⟩
          rw [Form.depthAll, List.length_cons]
          omega
        rw [read_openParen eof l outer opens]
        exact ih entered later
      · rw [Token.tooDeep?, closes] at shallow
        cases outer with
        | nil =>
            rw [read_closeParen_nil eof l closes]
            exact fits.depth_close_le t
        | cons parent outer =>
            rw [read_closeParen_cons eof l parent outer closes]
            exact ih (fits.close t) shallow
      · have inner := fits.1
        rw [Token.tooDeep?] at shallow
        simp only at shallow
        rw [read_other eof l outer opens closes]
        refine ih (Fits.add fits ?_) shallow
        rw [Form.depth]
        omega

end OpenList

namespace Document

variable {limit : Int} {tokens : List Token}

theorem depth_rootForm_le {opener closer : Token} {items : List Form} {behind : List Token}
    (shallow : Token.tooDeep? limit 0 tokens = none)
    (root : rootForm tokens = (.list opener items closer, behind)) :
    ((Form.list opener items closer).depth : Int) ≤ limit := by
  have before := Token.tooDeep?_beforeEnd shallow
  cases split : Token.beforeEnd tokens with
  | nil => simp [rootForm, split] at root
  | cons t rest =>
      by_cases opens : t.kind = .openParen
      · rw [split] at before
        obtain ⟨room, later⟩ := (Token.tooDeep?_cons_openParen opens).mp before
        have fits : OpenList.Fits limit [⟨t, []⟩] := by
          refine ⟨?_, trivial⟩
          rw [Form.depthAll, List.length_nil]
          omega
        have within := fits.depth_read_le (Token.ending tokens) later
        rwa [← rootForm_eq_read split opens, root] at within
      · simp [rootForm, split, opens] at root

/-- What the nesting guard makes of tokens. -/
structure Guarded (limit : Int) (tokens : List Token) : Prop where
  /-- That lists are nested too deeply is reported exactly if they are. -/
  reported : (∃ f ∈ (ofTokens limit tokens).faults,
    f.diagnostic.message = "Maximum nesting depth exceeded") ↔ Token.Exceeds limit tokens
  /-- It is reported at the first parenthesis beyond the limit, and nothing else is. -/
  alone : Token.Exceeds limit tokens → ∃ front t back,
    tokens = front ++ t :: back ∧ Token.FirstBeyond limit front t ∧
      (ofTokens limit tokens).value? = none ∧
      (ofTokens limit tokens).faults.map Fault.diagnostic =
        [⟨"Maximum nesting depth exceeded", t.start⟩]
  /-- A document is no deeper than the limit. -/
  bounded : ∀ d, (ofTokens limit tokens).value? = some d → ∀ chain, d.Descends chain →
    (1 + Landmark.levels chain : Int) ≤ limit

theorem ofTokens_of_shallow (shallow : Token.tooDeep? limit 0 tokens = none) :
    ofTokens limit tokens = ofForm (rootForm tokens).2 (rootForm tokens).1 := by
  rw [ofTokens, shallow]

theorem guarded_of_shallow (shallow : Token.tooDeep? limit 0 tokens = none) :
    Guarded limit tokens := by
  have within := Token.tooDeep?_eq_none.mp shallow
  have admits := admits_ofForm (rootForm tokens).2 (rootForm tokens).1
  rw [← ofTokens_of_shallow shallow] at admits
  refine ⟨⟨?_, fun exceeds => absurd exceeds within⟩, fun exceeds => absurd exceeds within, ?_⟩
  · rintro ⟨f, member, same⟩
    exact absurd same (FaultCause.message_ne_of_isOfForms (admits.of_mem_faults member))
  · intro d read chain descends
    have levels := admits.ensures d (Attempt.value?_eq_some.mp read) chain descends
    cases root : rootForm tokens with
    | mk form behind =>
        rw [root] at levels
        cases form with
        | atom t =>
            rw [ofTokens_of_shallow shallow, root] at read
            cases read
        | list opener items closer =>
            have deep := depth_rootForm_le shallow root
            simp only at levels
            omega

theorem guarded_of_tooDeep {t : Token} (found : Token.tooDeep? limit 0 tokens = some t) :
    Guarded limit tokens := by
  have fails : ofTokens limit tokens = Attempt.fail .tooDeep t := by rw [ofTokens, found]
  obtain ⟨front, back, split, first⟩ := Token.firstBeyond_of_tooDeep? found
  have exceeds : Token.Exceeds limit tokens := ⟨front, t, back, split, first.opens, first.beyond⟩
  refine ⟨⟨fun _ => exceeds, fun _ => ?_⟩, fun _ => ⟨front, t, back, split, first, ?_⟩, ?_⟩
  · exact ⟨⟨.tooDeep, t.start⟩, by simp [fails, Attempt.fail, Attempt.faults], rfl⟩
  · rw [fails]
    exact ⟨rfl, rfl⟩
  · intro d read
    rw [fails] at read
    cases read

/-- The guard reports tokens whose lists are nested too deeply, and bounds how far documents of all
others descend. -/
theorem ofTokens_guarded (limit : Int) (tokens : List Token) : Guarded limit tokens := by
  cases found : Token.tooDeep? limit 0 tokens with
  | none => exact guarded_of_shallow found
  | some t => exact guarded_of_tooDeep found

example : ((ofSource 3 "(wire (screen home (box (box))))").faults.map Fault.diagnostic,
    (ofSource 4 "(wire (screen home (box (box))))").faults) =
      ([⟨"Maximum nesting depth exceeded", ⟨1, 25⟩⟩], []) := by
  decide +kernel

end Document
end Wireframe
