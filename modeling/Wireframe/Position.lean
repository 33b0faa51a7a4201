/-!
# Positions and diagnostics

A position is a line and a column, both counted from one in a source; walking over a character moves
one column on, or to the start of the next line.
-/

namespace Wireframe

/-- A line and a column of a source. -/
structure Position where
  /-- The line, counted from one. -/
  line : Int
  /-- The column in characters, counted from one. -/
  column : Int
  deriving DecidableEq, Repr

namespace Position

/-- Where a source begins. -/
def first : Position := ⟨1, 1⟩

/-- No place in any source, for nodes without a location. -/
def nowhere : Position := ⟨0, 0⟩

/-- The position behind a character. -/
def after (p : Position) (c : Char) : Position :=
  if c = '\n' then ⟨p.line + 1, 1⟩ else ⟨p.line, p.column + 1⟩

/-- The position behind a text. -/
def afterAll (p : Position) (cs : List Char) : Position :=
  cs.foldl after p

@[simp]
theorem afterAll_nil (p : Position) : p.afterAll [] = p := rfl

@[simp]
theorem afterAll_cons (p : Position) (c : Char) (cs : List Char) :
    p.afterAll (c :: cs) = (p.after c).afterAll cs := rfl

theorem afterAll_append (p : Position) (cs ds : List Char) :
    p.afterAll (cs ++ ds) = (p.afterAll cs).afterAll ds := by
  simp [afterAll, List.foldl_append]

/-- Whether both parts count from one. -/
def isProper (p : Position) : Bool :=
  1 ≤ p.line && 1 ≤ p.column

theorem isProper_after {p : Position} (proper : p.isProper) (c : Char) : (p.after c).isProper := by
  simp only [isProper, Bool.and_eq_true, decide_eq_true_eq] at proper ⊢
  unfold after
  split
  · constructor <;> simp only <;> omega
  · constructor <;> simp only <;> omega

/-- Walking over a text does not leave the source. -/
theorem isProper_afterAll {p : Position} (proper : p.isProper) (cs : List Char) :
    (p.afterAll cs).isProper := by
  induction cs generalizing p with
  | nil => exact proper
  | cons c rest ih => exact ih (isProper_after proper c)

end Position

/-- The place of a node: where it starts, and where it ends if that is known. -/
structure Location where
  /-- Where the node starts. -/
  start : Position
  /-- The line behind the node. -/
  endLine : Option Int
  /-- The column behind the node. -/
  endColumn : Option Int
  deriving DecidableEq, Repr

/-- A message for the author about a place in the source. -/
structure Diagnostic where
  /-- What is wrong. -/
  message : String
  /-- Where it is wrong. -/
  position : Position
  deriving DecidableEq, Repr

namespace Diagnostic

/-- A message with its place in words. -/
def render (d : Diagnostic) : String :=
  s!"{d.message} at line {d.position.line}, column {d.position.column}"

end Diagnostic
end Wireframe
