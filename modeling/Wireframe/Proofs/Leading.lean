import Wireframe.Proofs.Numerals

/-!
# Numerals that lead a text

A text may begin with a numeral and go on with anything.  The grammar of such numerals says what
each of them denotes; the readers take the longest one, although a point or an exponent mark behind
it may look as if the numeral went on.
-/

namespace Wireframe
namespace Numeral

open Text

/-- How the sign of a numeral is written, with whether it is a minus. -/
inductive SpellsSign : Bool → List Char → Prop
  | absent : SpellsSign false []
  | plus : SpellsSign false ['+']
  | minus : SpellsSign true ['-']

/-- One or more digits of any script. -/
def IsRun (cs : List Char) : Prop :=
  cs ≠ [] ∧ ∀ c ∈ cs, isDigit c = true

/-- How the digits before the point and those behind it are written: without decimals the point may
be left out, with it one of the two may be. -/
inductive SpellsDigits : List Char → List Char → List Char → Prop
  | whole {digits : List Char} (run : IsRun digits) : SpellsDigits digits [] digits
  | pointed {digits decimals : List Char} (inside : ∀ c ∈ digits, isDigit c = true)
      (behind : ∀ c ∈ decimals, isDigit c = true) (any : digits ≠ [] ∨ decimals ≠ []) :
      SpellsDigits digits decimals (digits ++ '.' :: decimals)

/-- How a power of ten is written. -/
inductive SpellsPower : Int → List Char → Prop
  | absent : SpellsPower 0 []
  | marked {mark : Char} {negative : Bool} {sign digits : List Char}
      (isMark : mark = 'e' ∨ mark = 'E') (signed : SpellsSign negative sign) (run : IsRun digits) :
      SpellsPower (Numeral.signed negative digits) (mark :: (sign ++ digits))

/-- How a numeral is written. -/
inductive Spells : Numeral → List Char → Prop
  | parts {n : Numeral} {sign mantissa power : List Char} (signed : SpellsSign n.negative sign)
      (digits : SpellsDigits n.whole n.decimals mantissa) (scaled : SpellsPower n.power power) :
      Spells n (sign ++ (mantissa ++ power))

/-- How a whole number is written, with whether it has a minus, and its digits. -/
inductive SpellsInteger : Bool → List Char → List Char → Prop
  | parts {negative : Bool} {sign digits : List Char} (signed : SpellsSign negative sign)
      (run : IsRun digits) : SpellsInteger negative digits (sign ++ digits)

/-- Whether characters are a decimal: `[sign](digits[.[digits]] | .digits)[(e|E)[sign]digits]`. -/
def IsDecimal (cs : List Char) : Prop :=
  ∃ n, Spells n cs

/-- Whether characters are a whole number: `[sign]digits`. -/
def IsInteger (cs : List Char) : Prop :=
  ∃ negative digits, SpellsInteger negative digits cs

/-- Whether characters are the word for an infinite number, with whether it is negative. -/
def SpellsInfinity (negative : Bool) (cs : List Char) : Prop :=
  ∃ sign, SpellsSign negative sign ∧ cs = sign ++ "Infinity".toList

/-- The longest characters of a kind that a text begins with. -/
structure LongestPrefix (kind : List Char → Prop) (cs p : List Char) : Prop where
  /-- The text begins with them. -/
  leads : p <+: cs
  /-- They are of the kind. -/
  ofKind : kind p
  /-- All others that the text begins with are contained in them. -/
  longest : ∀ q, q <+: cs → kind q → q <+: p

/-- What holds of the ten digits of each script holds of every digit. -/
theorem of_isDigit {P : Char → Bool} {c : Char}
    (all : (digitZeros.all fun first => (List.range 10).all fun i => P (.ofNat (first + i))) = true)
    (digit : isDigit c = true) : P c = true := by
  simp only [isDigit, digitValue?, Option.isSome_map, List.find?_isSome, Bool.and_eq_true,
    decide_eq_true_eq] at digit
  obtain ⟨first, member, low, high⟩ := digit
  have each := List.all_eq_true.mp (List.all_eq_true.mp all first member) (c.toNat - first)
    (List.mem_range.mpr (by omega))
  rwa [Nat.add_sub_cancel' low, Char.ofNat_toNat] at each

/-- Whether a character is neither blank nor groups a numeral. -/
def isSolid (c : Char) : Bool :=
  !isBlank c && c != '_'

/-- Whether a character stands at one place of a numeral only: a sign, the point or an exponent
mark. -/
def isPunctuation (c : Char) : Bool :=
  c == '+' || c == '-' || c == '.' || c == 'e' || c == 'E'

theorem isSolid_of_isDigit {c : Char} (digit : isDigit c = true) : isSolid c = true :=
  of_isDigit (by decide +kernel) digit

theorem isPunctuation_of_isDigit {c : Char} (digit : isDigit c = true) :
    isPunctuation c = false := by
  have apart : (!isPunctuation c) = true :=
    of_isDigit (P := fun c => !isPunctuation c) (by decide +kernel) digit
  simpa using apart

theorem isDigit_of_isPunctuation {c : Char} (mark : isPunctuation c = true) :
    isDigit c = false := by
  cases digit : isDigit c with
  | false => rfl
  | true => exact absurd mark (by simp [isPunctuation_of_isDigit digit])

theorem IsRun.head {cs : List Char} (run : IsRun cs) (rest : List Char) :
    ∃ c ∈ (cs ++ rest).head?, isDigit c = true := by
  cases cs with
  | nil => exact absurd rfl run.1
  | cons c cs => exact ⟨c, rfl, run.2 c List.mem_cons_self⟩

private theorem isDigit_of_mem_takeWhile {cs : List Char} :
    ∀ c ∈ cs.takeWhile isDigit, isDigit c = true :=
  List.all_eq_true.mp List.all_takeWhile

private theorem isRun_takeWhile {cs : List Char} (nonempty : cs.takeWhile isDigit ≠ []) :
    IsRun (cs.takeWhile isDigit) :=
  ⟨nonempty, isDigit_of_mem_takeWhile⟩

private theorem isEmpty_and_isEmpty {digits decimals : List Char} :
    (digits.isEmpty && decimals.isEmpty) = false ↔ digits ≠ [] ∨ decimals ≠ [] := by
  cases digits with
  | nil => simp
  | cons c digits => simp

private theorem not_isDigit_point {rest : List Char} :
    ∀ c, ('.' :: rest).head? = some c → isDigit c = false := by
  intro c head
  obtain rfl := Option.some.inj head
  exact isDigit_of_isPunctuation rfl

/-- Whether no sign comes next. -/
def Unsigned (cs : List Char) : Prop :=
  ∀ c ∈ cs.head?, c ≠ '-' ∧ c ≠ '+'

theorem unsigned_of_isDigit {cs : List Char} (digit : ∃ c ∈ cs.head?, isDigit c = true) :
    Unsigned cs := by
  obtain ⟨c, head, isDigit⟩ := digit
  intro d also
  obtain rfl : c = d := Option.some.inj (Eq.trans (Eq.symm head) also)
  have plain := isPunctuation_of_isDigit isDigit
  constructor
  · rintro rfl
    cases plain
  · rintro rfl
    cases plain

theorem readSign_of_unsigned {cs : List Char} (unsigned : Unsigned cs) :
    readSign cs = (false, cs) := by
  rw [readSign.eq_def]
  split
  · exact absurd rfl (unsigned '-' rfl).1
  · exact absurd rfl (unsigned '+' rfl).2
  · rfl

theorem readSign_append {negative : Bool} {sign rest : List Char}
    (signed : SpellsSign negative sign) (unsigned : Unsigned rest) :
    readSign (sign ++ rest) = (negative, rest) := by
  cases signed with
  | absent => exact readSign_of_unsigned unsigned
  | plus => rfl
  | minus => rfl

theorem exists_spellsSign (cs : List Char) :
    ∃ sign, SpellsSign (readSign cs).1 sign ∧ cs = sign ++ (readSign cs).2 := by
  rw [readSign.eq_def]
  split
  · exact ⟨['-'], .minus, rfl⟩
  · exact ⟨['+'], .plus, rfl⟩
  · exact ⟨[], .absent, rfl⟩

theorem SpellsDigits.unsigned {digits decimals mantissa : List Char}
    (spelled : SpellsDigits digits decimals mantissa) (rest : List Char) :
    Unsigned (mantissa ++ rest) := by
  cases spelled with
  | whole run => exact unsigned_of_isDigit (run.head rest)
  | pointed inside =>
      cases digits with
      | nil =>
          intro c head
          obtain rfl : '.' = c := Option.some.inj head
          decide
      | cons c digits => exact unsigned_of_isDigit ⟨c, rfl, inside c List.mem_cons_self⟩

theorem readDigits?_sound {cs digits decimals rest : List Char}
    (found : readDigits? cs = some (digits, decimals, rest)) :
    ∃ mantissa, SpellsDigits digits decimals mantissa ∧ cs = mantissa ++ rest := by
  have parts := List.takeWhile_append_dropWhile (p := isDigit) (l := cs)
  simp only [readDigits?] at found
  split at found
  · rename_i behind point
    cases any : (cs.takeWhile isDigit).isEmpty && (behind.takeWhile isDigit).isEmpty with
    | true => simp [any] at found
    | false =>
        rw [any] at found
        cases found
        refine ⟨_, .pointed isDigit_of_mem_takeWhile isDigit_of_mem_takeWhile
          (isEmpty_and_isEmpty.mp any), ?_⟩
        rw [List.append_assoc, List.cons_append, List.takeWhile_append_dropWhile, ← point, parts]
  · split at found
    · cases found
    · rename_i any
      cases found
      exact ⟨_, .whole (isRun_takeWhile (by simpa using any)), parts.symm⟩

/-- What stands behind the digits of a numeral ends them. -/
def EndsMantissa (cs : List Char) : Prop :=
  ∀ c ∈ cs.head?, isDigit c = false ∧ c ≠ '.'

theorem SpellsDigits.readDigits?_exact {digits decimals mantissa tail : List Char}
    (spelled : SpellsDigits digits decimals mantissa) (ends : EndsMantissa tail) :
    readDigits? (mantissa ++ tail) = some (digits, decimals, tail) := by
  have ended : ∀ c, tail.head? = some c → isDigit c = false := fun c head => (ends c head).1
  cases spelled with
  | whole run =>
      obtain ⟨taken, dropped⟩ := Word.takeWhile_exact run.2 ended
      rw [readDigits?, taken, dropped]
      split
      · exact absurd rfl (ends '.' rfl).2
      · simp [run.1]
  | pointed inside behind any =>
      obtain ⟨taken, dropped⟩ := Word.takeWhile_exact inside not_isDigit_point
      obtain ⟨takenToo, droppedToo⟩ := Word.takeWhile_exact behind ended
      rw [List.append_assoc, List.cons_append, readDigits?, taken, dropped]
      simp only [takenToo, droppedToo, isEmpty_and_isEmpty.mpr any]
      rfl

/-- However the text goes on behind the digits of a numeral, they are all read. -/
theorem SpellsDigits.readDigits?_reaches {digits decimals mantissa : List Char}
    (spelled : SpellsDigits digits decimals mantissa) (tail : List Char) :
    ∃ more moreDecimals rest, readDigits? (mantissa ++ tail) = some (more, moreDecimals, rest) ∧
      rest <:+ tail := by
  have suffix := List.dropWhile_suffix (l := tail) isDigit
  cases spelled with
  | whole run =>
      have nonempty : (digits ++ tail.takeWhile isDigit).isEmpty = false := by simp [run.1]
      rw [readDigits?, List.takeWhile_append_of_pos run.2, List.dropWhile_append_of_pos run.2]
      split
      · rename_i behind point
        rw [point] at suffix
        simp only [nonempty, Bool.false_and]
        exact ⟨_, _, _, rfl, (List.dropWhile_suffix _).trans ((List.suffix_cons _ _).trans suffix)⟩
      · simp only [nonempty]
        exact ⟨_, _, _, rfl, suffix⟩
  | pointed inside behind any =>
      obtain ⟨taken, dropped⟩ := Word.takeWhile_exact inside not_isDigit_point
      have more : digits ≠ [] ∨ decimals ++ tail.takeWhile isDigit ≠ [] :=
        any.imp id fun some none => some (List.append_eq_nil_iff.mp none).1
      rw [List.append_assoc, List.cons_append, readDigits?, taken, dropped]
      simp only [List.takeWhile_append_of_pos behind, List.dropWhile_append_of_pos behind,
        isEmpty_and_isEmpty.mpr more]
      exact ⟨_, _, _, rfl, suffix⟩

theorem readPower_sound (cs : List Char) :
    ∃ power, SpellsPower (readPower cs).1 power ∧ cs = power ++ (readPower cs).2 := by
  cases cs with
  | nil => exact ⟨[], .absent, rfl⟩
  | cons c cs =>
      simp only [readPower]
      split
      · rename_i marked
        obtain ⟨sign, signed, split⟩ := exists_spellsSign cs
        refine ⟨_, .marked marked.1 signed (isRun_takeWhile marked.2), ?_⟩
        rw [List.cons_append, List.append_assoc, List.takeWhile_append_dropWhile, ← split]
      · exact ⟨[], .absent, rfl⟩

theorem SpellsPower.endsMantissa {exponent : Int} {power : List Char}
    (spelled : SpellsPower exponent power) (nonempty : power ≠ []) (rest : List Char) :
    EndsMantissa (power ++ rest) := by
  cases spelled with
  | absent => exact absurd rfl nonempty
  | marked isMark =>
      intro c head
      obtain rfl := Option.some.inj head
      rcases isMark with rfl | rfl
      · exact ⟨isDigit_of_isPunctuation rfl, by decide⟩
      · exact ⟨isDigit_of_isPunctuation rfl, by decide⟩

/-- However the text goes on behind a power of ten, it is all read; at the end of the text it is
read as it stands. -/
theorem SpellsPower.readPower_reaches {exponent : Int} {power : List Char}
    (spelled : SpellsPower exponent power) (tail : List Char) :
    (readPower (power ++ tail)).2 <:+ tail ∧
      (tail = [] → readPower (power ++ tail) = (exponent, [])) := by
  cases spelled with
  | absent =>
      obtain ⟨power, -, split⟩ := readPower_sound tail
      refine ⟨⟨power, split.symm⟩, ?_⟩
      rintro rfl
      rfl
  | @marked mark negative sign digits isMark signed run =>
      have unsigned := unsigned_of_isDigit (run.head tail)
      have found : digits ++ tail.takeWhile isDigit ≠ [] := by simp [run.1]
      rw [List.cons_append, List.append_assoc, readPower, readSign_append signed unsigned]
      simp only [List.takeWhile_append_of_pos run.2, List.dropWhile_append_of_pos run.2]
      rw [if_pos ⟨isMark, found⟩]
      refine ⟨List.dropWhile_suffix _, ?_⟩
      rintro rfl
      simp

/-! ## Numerals -/

/-- A numeral is read, and nothing else. -/
theorem read?_sound {cs rest : List Char} {n : Numeral} (found : read? cs = some (n, rest)) :
    ∃ p, Spells n p ∧ cs = p ++ rest := by
  obtain ⟨sign, signed, split⟩ := exists_spellsSign cs
  simp only [read?, Option.map_eq_some_iff] at found
  obtain ⟨⟨digits, decimals, behind⟩, mantissaFound, same⟩ := found
  obtain ⟨mantissa, spelled, splitMantissa⟩ := readDigits?_sound mantissaFound
  obtain ⟨power, scaled, splitPower⟩ := readPower_sound behind
  cases same
  refine ⟨_, .parts signed spelled scaled, ?_⟩
  rw [List.append_assoc, List.append_assoc, ← splitPower, ← splitMantissa, ← split]

/-- However the text goes on behind a numeral, all of the numeral is read. -/
theorem read?_reaches {p : List Char} (decimal : IsDecimal p) (tail : List Char) :
    ∃ n rest, read? (p ++ tail) = some (n, rest) ∧ rest <:+ tail := by
  obtain ⟨n, signed, spelled, scaled⟩ := decimal
  rename_i sign mantissa power
  rw [List.append_assoc, List.append_assoc, read?, readSign_append signed (spelled.unsigned _)]
  by_cases absent : power = []
  · obtain ⟨more, decimals, rest, found, suffix⟩ := spelled.readDigits?_reaches tail
    obtain ⟨behind, -, split⟩ := readPower_sound rest
    simp only [absent, List.nil_append, found]
    have read : (readPower rest).2 <:+ rest := ⟨behind, split.symm⟩
    exact ⟨_, _, rfl, read.trans suffix⟩
  · simp only [spelled.readDigits?_exact (scaled.endsMantissa absent tail)]
    exact ⟨_, _, rfl, (scaled.readPower_reaches tail).1⟩

theorem read?_exact {n : Numeral} {p : List Char} (spells : Spells n p) :
    read? p = some (n, []) := by
  obtain ⟨signed, spelled, scaled⟩ := spells
  rename_i sign mantissa power
  have ends : EndsMantissa power := by
    by_cases absent : power = []
    · simp [EndsMantissa, absent]
    · simpa using scaled.endsMantissa absent []
  have exactly := (scaled.readPower_reaches []).2 rfl
  rw [List.append_nil] at exactly
  rw [read?, readSign_append signed (spelled.unsigned power)]
  simp only [spelled.readDigits?_exact ends, Option.map_some, exactly]

theorem SpellsSign.isSolid {negative : Bool} {sign : List Char}
    (signed : SpellsSign negative sign) : ∀ c ∈ sign, isSolid c = true := by
  cases signed with
  | absent => exact List.forall_mem_nil _
  | plus => exact List.forall_mem_singleton.mpr rfl
  | minus => exact List.forall_mem_singleton.mpr rfl

theorem IsRun.isSolid {digits : List Char} (run : IsRun digits) : ∀ c ∈ digits, isSolid c = true :=
  fun c member => isSolid_of_isDigit (run.2 c member)

theorem SpellsDigits.isSolid {digits decimals mantissa : List Char}
    (spelled : SpellsDigits digits decimals mantissa) : ∀ c ∈ mantissa, isSolid c = true := by
  cases spelled with
  | whole run => exact run.isSolid
  | pointed inside behind =>
      intro c member
      rcases List.mem_append.mp member with before | after
      · exact isSolid_of_isDigit (inside c before)
      · rcases List.mem_cons.mp after with rfl | after
        · decide
        · exact isSolid_of_isDigit (behind c after)

theorem SpellsPower.isSolid {exponent : Int} {power : List Char}
    (spelled : SpellsPower exponent power) : ∀ c ∈ power, isSolid c = true := by
  cases spelled with
  | absent => simp
  | marked isMark signed run =>
      intro c member
      rcases List.mem_cons.mp member with rfl | behind
      · rcases isMark with rfl | rfl
        · decide
        · decide
      · exact (List.mem_append.mp behind).elim (signed.isSolid c) (run.isSolid c)

theorem Spells.isSolid {n : Numeral} {p : List Char} (spells : Spells n p) :
    ∀ c ∈ p, isSolid c = true := by
  obtain ⟨signed, spelled, scaled⟩ := spells
  intro c member
  rcases List.mem_append.mp member with inSign | behind
  · exact signed.isSolid c inSign
  · exact (List.mem_append.mp behind).elim (spelled.isSolid c) (scaled.isSolid c)

/-- Nothing is trimmed from a numeral, and nothing is left out in it. -/
private theorem plain_of_isSolid {cs : List Char} (solid : ∀ c ∈ cs, isSolid c = true) :
    trim isPadding cs = cs ∧ ungroup? false cs = some cs := by
  constructor
  · refine trim_eq_self fun c member => ?_
    have notBlank := (Bool.and_eq_true_iff.mp (solid c member)).1
    rw [isBlank, Bool.not_or] at notBlank
    simpa using (Bool.and_eq_true_iff.mp notBlank).1
  · exact ungroup?_eq_some (fun member => absurd (solid '_' member) (by decide)) false

theorem toDouble?_of_spells {n : Numeral} {p : List Char} (spells : Spells n p) :
    toDouble? (String.ofList p) = some n.toDouble := by
  obtain ⟨trimmed, ungrouped⟩ := plain_of_isSolid spells.isSolid
  rw [toDouble?, String.toList_ofList, trimmed, ungrouped, Option.bind_eq_bind, Option.bind_some,
    read?_exact spells]

theorem leadingDouble?_of_spells {n : Numeral} {p : List Char} (spells : Spells n p) :
    leadingDouble? (String.ofList p) = some n.toDouble := by
  have notBlank : p.dropWhile isBlank = p := by
    refine dropWhile_eq_self fun c member => ?_
    simpa using (Bool.and_eq_true_iff.mp (spells.isSolid c member)).1
  rw [leadingDouble?, String.toList_ofList, notBlank, read?_exact spells]

theorem toDigits?_of_spells {negative : Bool} {digits p : List Char}
    (spells : SpellsInteger negative digits p) :
    toDigits? (String.ofList p) = some (negative, digits) := by
  obtain ⟨signed, run⟩ := spells
  rename_i sign
  have solid : ∀ c ∈ sign ++ digits, isSolid c = true := fun c member =>
    (List.mem_append.mp member).elim (signed.isSolid c) (run.isSolid c)
  have unsigned := unsigned_of_isDigit (run.head [])
  rw [List.append_nil] at unsigned
  rw [toDigits?, String.toList_ofList, (plain_of_isSolid solid).1, readSign_append signed unsigned]
  simp only [(plain_of_isSolid run.isSolid).2, Option.bind_eq_bind, Option.bind_some]
  refine if_pos ?_
  simp only [Bool.and_eq_true, Bool.not_eq_true', List.isEmpty_eq_false_iff]
  exact ⟨run.1, List.all_eq_true.mpr run.2⟩

theorem exists_spells_of_isNumeral {cs : List Char} (numeral : Word.IsNumeral cs) :
    ∃ n, Spells n cs := by
  obtain ⟨negative, digits, fraction, decimals, rfl, isDigits, shape⟩ := isNumeral_iff.mp numeral
  have signed : SpellsSign negative (signChars negative) := by
    cases negative with
    | false => exact .absent
    | true => exact .minus
  have spelled : SpellsDigits digits decimals (digits ++ fraction) := by
    rcases shape with ⟨rfl, rfl⟩ | ⟨rfl, behind⟩
    · rw [List.append_nil]
      exact .whole ⟨isDigits.1, isDigit_of_isDigits isDigits⟩
    · exact .pointed (isDigit_of_isDigits isDigits) (isDigit_of_isDigits behind)
        (Or.inl isDigits.1)
  have spells := Spells.parts (n := ⟨negative, digits, decimals, 0⟩) signed spelled .absent
  rw [List.append_nil] at spells
  exact ⟨_, spells⟩

/-! ## The longest numeral -/

/-- What is split off is the longest of its kind if no other leaves less of the text. -/
theorem LongestPrefix.of_suffix {kind : List Char → Prop} {cs p rest : List Char}
    (split : cs = p ++ rest) (ofKind : kind p)
    (reaches : ∀ q tail, kind q → cs = q ++ tail → rest <:+ tail) : LongestPrefix kind cs p := by
  refine ⟨⟨rest, split.symm⟩, ofKind, ?_⟩
  rintro q ⟨tail, other⟩ alsoKind
  have shorter := (reaches q tail alsoKind other.symm).length_le
  have lengths := congrArg List.length (other.trans split)
  rw [List.length_append, List.length_append] at lengths
  exact List.prefix_of_prefix_length_le ⟨tail, other⟩ ⟨rest, split.symm⟩ (by omega)

/-- What is read from the front of a text is the longest decimal that it begins with. -/
theorem longestPrefix_of_read? {cs rest : List Char} {n : Numeral}
    (found : read? cs = some (n, rest)) : ∃ p, LongestPrefix IsDecimal cs p ∧ Spells n p := by
  obtain ⟨p, spells, split⟩ := read?_sound found
  refine ⟨p, .of_suffix split ⟨n, spells⟩ ?_, spells⟩
  rintro q tail decimal rfl
  obtain ⟨other, otherRest, also, suffix⟩ := read?_reaches decimal tail
  cases found.symm.trans also
  exact suffix

theorem read?_ne_none {cs q : List Char} (leads : q <+: cs) (decimal : IsDecimal q) :
    read? cs ≠ none := by
  obtain ⟨tail, rfl⟩ := leads
  obtain ⟨n, rest, found, -⟩ := read?_reaches decimal tail
  simp [found]

theorem unsigned_infinity (rest : List Char) : Unsigned ("Infinity".toList ++ rest) := by
  intro c head
  obtain rfl : 'I' = c := Option.some.inj head
  decide

theorem readInfinity?_of_leads {cs w : List Char} {negative : Bool}
    (spelled : SpellsInfinity negative w) (leads : w <+: cs) :
    readInfinity? cs = some (.infinite negative) := by
  obtain ⟨sign, signed, rfl⟩ := spelled
  obtain ⟨rest, rfl⟩ := leads
  rw [readInfinity?, List.append_assoc, readSign_append signed (unsigned_infinity rest)]
  exact if_pos (List.isPrefixOf_iff_prefix.mpr (List.prefix_append _ _))

theorem readInfinity?_sound {cs : List Char} {d : Double} (found : readInfinity? cs = some d) :
    ∃ negative w, SpellsInfinity negative w ∧ w <+: cs := by
  obtain ⟨sign, signed, split⟩ := exists_spellsSign cs
  simp only [readInfinity?, Option.ite_none_right_eq_some, List.isPrefixOf_iff_prefix] at found
  obtain ⟨⟨rest, more⟩, -⟩ := found
  refine ⟨_, _, ⟨sign, signed, rfl⟩, rest, ?_⟩
  rw [List.append_assoc, more, ← split]

/-- What is read as a whole number is the longest one that the text begins with. -/
theorem longestPrefix_of_leadingDigits? {text : String} {negative : Bool} {digits : List Char}
    (found : leadingDigits? text = some (negative, digits)) :
    ∃ p, LongestPrefix IsInteger (text.toList.dropWhile isBlank) p ∧
      SpellsInteger negative digits p := by
  obtain ⟨sign, signed, split⟩ := exists_spellsSign (text.toList.dropWhile isBlank)
  simp only [leadingDigits?] at found
  generalize text.toList.dropWhile isBlank = cs at found signed split
  split at found
  · cases found
  · rename_i any
    cases found
    have run : IsRun ((readSign cs).2.takeWhile isDigit) := isRun_takeWhile (by simpa using any)
    have whole : cs = sign ++ (readSign cs).2.takeWhile isDigit ++
        (readSign cs).2.dropWhile isDigit := by
      rw [List.append_assoc, List.takeWhile_append_dropWhile, ← split]
    refine ⟨_, .of_suffix whole ⟨_, _, .parts signed run⟩ ?_, .parts signed run⟩
    rintro q tail ⟨otherNegative, otherDigits, otherSigned, otherRun⟩ other
    rw [other, List.append_assoc,
      readSign_append otherSigned (unsigned_of_isDigit (otherRun.head tail)),
      List.dropWhile_append_of_pos otherRun.2]
    exact List.dropWhile_suffix _

theorem leadingDigits?_ne_none {text : String} {q : List Char}
    (leads : q <+: text.toList.dropWhile isBlank) (integer : IsInteger q) :
    leadingDigits? text ≠ none := by
  obtain ⟨tail, other⟩ := leads
  obtain ⟨negative, digits, signed, run⟩ := integer
  have any : digits ++ tail.takeWhile isDigit ≠ [] := by simp [run.1]
  rw [leadingDigits?, ← other, List.append_assoc,
    readSign_append signed (unsigned_of_isDigit (run.head tail))]
  simp [List.takeWhile_append_of_pos run.2, any]

theorem IsInteger.isDecimal {cs : List Char} (integer : IsInteger cs) : IsDecimal cs := by
  obtain ⟨negative, digits, signed, run⟩ := integer
  have spells := Spells.parts (n := ⟨negative, digits, [], 0⟩) signed (.whole run) .absent
  rw [List.append_nil] at spells
  exact ⟨_, spells⟩

/-- What the readers of leading numbers make of a text, given as it stands and without the blanks
that it begins with. -/
structure ReadsLongest (text : String) (unpadded : List Char) : Prop where
  /-- The longest decimal is read, as what it denotes when it stands alone. -/
  decimal : (∃ q, q <+: unpadded ∧ IsDecimal q) →
    ∃ p n, LongestPrefix IsDecimal unpadded p ∧ Spells n p ∧
      leadingDouble? text = some n.toDouble ∧ toDouble? (String.ofList p) = some n.toDouble
  /-- Without a decimal, the word for an infinite number is read. -/
  infinite : (∀ q, q <+: unpadded → ¬IsDecimal q) →
    ∀ negative w, SpellsInfinity negative w → w <+: unpadded →
      leadingDouble? text = some (.infinite negative)
  /-- Nothing else is a number. -/
  nothing : (∀ q, q <+: unpadded → ¬IsDecimal q) →
    (∀ negative w, SpellsInfinity negative w → ¬w <+: unpadded) → leadingDouble? text = none
  /-- The longest whole number is read, with the sign and the digits that it has when it stands
  alone. -/
  integer : (∃ q, q <+: unpadded ∧ IsInteger q) →
    ∃ p negative digits, LongestPrefix IsInteger unpadded p ∧ SpellsInteger negative digits p ∧
      leadingDigits? text = some (negative, digits) ∧
      toDigits? (String.ofList p) = some (negative, digits) ∧
      (digits.length ≤ digitLimit →
        Number.leadingInteger text = .ok (some (signed negative digits)))
  /-- Without a whole number none is read. -/
  noInteger : (∀ q, q <+: unpadded → ¬IsInteger q) → Number.leadingInteger text = .ok none
  /-- A decimal begins with the whole number that is read. -/
  extended : ∀ p, LongestPrefix IsInteger unpadded p →
    ∃ q, LongestPrefix IsDecimal unpadded q ∧ p <+: q

theorem exists_longestPrefix {cs q : List Char} (leads : q <+: cs) (decimal : IsDecimal q) :
    ∃ p n rest, LongestPrefix IsDecimal cs p ∧ Spells n p ∧ read? cs = some (n, rest) := by
  obtain ⟨⟨n, rest⟩, found⟩ := Option.ne_none_iff_exists'.mp (read?_ne_none leads decimal)
  obtain ⟨p, longest, spells⟩ := longestPrefix_of_read? found
  exact ⟨p, n, rest, longest, spells, found⟩

theorem read?_eq_none {cs : List Char} (apart : ∀ q, q <+: cs → ¬IsDecimal q) :
    read? cs = none := by
  cases found : read? cs with
  | none => rfl
  | some result =>
      obtain ⟨p, longest, -⟩ := longestPrefix_of_read? found
      exact absurd longest.ofKind (apart p longest.leads)

/-- The longest number that a text begins with is read, whatever follows it. -/
theorem leading_readsLongest (text : String) :
    ReadsLongest text (text.toList.dropWhile isBlank) where
  decimal := by
    rintro ⟨q, leads, decimal⟩
    obtain ⟨p, n, rest, longest, spells, found⟩ := exists_longestPrefix leads decimal
    refine ⟨p, n, longest, spells, ?_, toDouble?_of_spells spells⟩
    simp only [leadingDouble?, found]
  infinite := by
    intro apart negative w spelled leads
    simp only [leadingDouble?, read?_eq_none apart]
    exact readInfinity?_of_leads spelled leads
  nothing := by
    intro apart noWord
    simp only [leadingDouble?, read?_eq_none apart]
    cases found : readInfinity? (text.toList.dropWhile isBlank) with
    | none => rfl
    | some d =>
        obtain ⟨negative, w, spelled, leads⟩ := readInfinity?_sound found
        exact absurd leads (noWord negative w spelled)
  integer := by
    rintro ⟨q, leads, integer⟩
    obtain ⟨⟨negative, digits⟩, found⟩ :=
      Option.ne_none_iff_exists'.mp (leadingDigits?_ne_none leads integer)
    obtain ⟨p, longest, spells⟩ := longestPrefix_of_leadingDigits? found
    refine ⟨p, negative, digits, longest, spells, found, toDigits?_of_spells spells, ?_⟩
    intro few
    simp only [Number.leadingInteger, found]
    exact if_pos few
  noInteger := by
    intro apart
    cases found : leadingDigits? text with
    | none => simp only [Number.leadingInteger, found]
    | some result =>
        obtain ⟨p, longest, -⟩ := longestPrefix_of_leadingDigits? found
        exact absurd longest.ofKind (apart p longest.leads)
  extended := by
    intro p whole
    obtain ⟨q, n, rest, longest, -⟩ := exists_longestPrefix whole.leads whole.ofKind.isDecimal
    exact ⟨q, longest, longest.longest p whole.leads whole.ofKind.isDecimal⟩

-- A point without digits belongs to the numeral, an exponent mark without digits does not.
example : leadingDouble? "\u00A0-7.em" = toDouble? "-7." := by
  decide +kernel

end Numeral
end Wireframe
