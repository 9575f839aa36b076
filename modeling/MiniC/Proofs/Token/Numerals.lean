/-
Numbers are read as far as they go, wherever one starts, and as what they are
(`tokenize_numbered`).

# The grammar

What a number may look like is said once more as a grammar: a run of digits with
commas between them, a point and more digits, or a point and digits, with an `f`
behind (`IsNumber`). It describes the same texts as the lexer's own way of
splitting off a number (`unsuffixed_iff`).

# The longest

Wherever some of the bytes ahead are a number, the lexer reads the longest of
them (`Reads.longest`). The grammar is about bytes and the lexer about
characters; a number has no character of more than one byte, so a number in
front of the bytes of a text is one in front of the text (`number_front`).

# The literal

Of what is read the lexer makes the literal that its characters call for: of
what kind is told by the `f` and the point, its text is what is left without the
commas and the `f`, and that text denotes a number, if that of an integer is not
too large (`Reads.made`).
Consumed by no other module.
-/
import Mathlib.Algebra.Group.Nat.Defs
import Mathlib.Data.List.TakeDrop
import MiniC.Literal
import MiniC.Proofs.Token.Respelling

namespace MiniC

namespace Piece

-- ================================================================ grammar

/-- Digits, each of which may have a comma in front unless it is the first. -/
inductive DigitRun : List Char → Prop where
  | digit {c : Char} : c.isDigit = true → DigitRun [c]
  | next {c : Char} {cs : List Char} : c.isDigit = true → DigitRun cs → DigitRun (c :: cs)
  | grouped {c : Char} {cs : List Char} : c.isDigit = true → DigitRun cs →
    DigitRun (c :: ',' :: cs)

/-- A number without an `f` behind it. -/
inductive Unsuffixed : List Char → Prop where
  | whole {run : List Char} : DigitRun run → Unsuffixed run
  | pointed {run ds : List Char} : DigitRun run → (∀ d ∈ ds, d.isDigit = true) →
    Unsuffixed (run ++ '.' :: ds)
  | fraction {ds : List Char} : ds ≠ [] → (∀ d ∈ ds, d.isDigit = true) → Unsuffixed ('.' :: ds)

/-- A number. -/
inductive IsNumber : List Char → Prop where
  | plain {cs : List Char} : Unsuffixed cs → IsNumber cs
  | suffixed {cs : List Char} : Unsuffixed cs → IsNumber (cs ++ ['f'])

/-- A run is made of digits and commas, and a digit comes first. -/
theorem DigitRun.grouped_starts {cs : List Char} (h : DigitRun cs) :
    Grouped cs ∧ startsWithDigit cs = true := by
  induction h with
  | digit hc => exact ⟨.digit hc .nil, hc⟩
  | next hc _ ih => exact ⟨.digit hc ih.1, hc⟩
  | grouped hc _ ih => exact ⟨.digit hc (.comma ih.2 ih.1), hc⟩

/-- What starts with a digit is a run, and so is what a comma stands in front of. -/
theorem Grouped.run {cs : List Char} (h : Grouped cs) :
    (startsWithDigit cs = true → DigitRun cs) ∧ ∀ ds, cs = ',' :: ds → DigitRun ds := by
  induction h with
  | nil => exact ⟨nofun, nofun⟩
  | @digit c cs hc hcs ih =>
      refine ⟨fun _ => ?_, fun ds heq => ?_⟩
      · cases hcs with
        | nil => exact .digit hc
        | digit hd _ => exact .next hc (ih.1 hd)
        | comma _ _ => exact .grouped hc (ih.2 _ rfl)
      · obtain ⟨rfl, -⟩ := List.cons.inj heq
        exact absurd hc (by decide)
  | comma hcs _ ih =>
      refine ⟨fun hcomma => absurd (show Char.isDigit ',' = true from hcomma) (by decide),
        fun ds heq => ?_⟩
      obtain ⟨-, rfl⟩ := List.cons.inj heq
      exact ih.1 hcs

/-- The grammar describes the numerals that start as a number. -/
theorem unsuffixed_iff {cs : List Char} :
    Unsuffixed cs ↔ (∃ point, Numeral point cs) ∧ StartsNumeral cs := by
  have hstarts {run : List Char} (h : DigitRun run) (rest : List Char) :
      StartsNumeral (run ++ rest) :=
    StartsNumeral.append (.inl h.grouped_starts.2) rest
  constructor
  · intro h
    cases h with
    | whole hrun => exact ⟨⟨false, .whole hrun.grouped_starts.1⟩, .inl hrun.grouped_starts.2⟩
    | pointed hrun hds => exact ⟨⟨true, .pointed hrun.grouped_starts.1 hds⟩, hstarts hrun _⟩
    | @fraction ds hne hds =>
        obtain ⟨d, ds, rfl⟩ := List.exists_cons_of_ne_nil hne
        exact ⟨⟨true, .pointed .nil hds⟩, .inr ⟨_, rfl, hds d List.mem_cons_self⟩⟩
  · rintro ⟨⟨point, h⟩, hstart⟩
    cases h with
    | whole hcs =>
        obtain hdigit | ⟨ds, rfl, -⟩ := hstart
        · exact .whole (hcs.run.1 hdigit)
        · exact absurd List.mem_cons_self hcs.no_point
    | @pointed cs ds hcs hds =>
        cases cs with
        | nil =>
            obtain hdigit | ⟨_, heq, hdigit⟩ := hstart
            · exact absurd (show Char.isDigit '.' = true from hdigit) (by decide)
            · obtain ⟨-, rfl⟩ := List.cons.inj heq
              refine .fraction ?_ hds
              rintro rfl
              cases hdigit
        | cons c cs =>
            obtain hdigit | ⟨_, heq, -⟩ := hstart
            · exact .pointed (hcs.run.1 hdigit) hds
            · obtain ⟨rfl, -⟩ := List.cons.inj heq
              exact absurd List.mem_cons_self hcs.no_point

/-- A number starts as the lexer has it. -/
theorem IsNumber.starts {cs : List Char} (h : IsNumber cs) : StartsNumeral cs := by
  cases h with
  | plain h => exact (unsuffixed_iff.1 h).2
  | suffixed h => exact (unsuffixed_iff.1 h).2.append _

-- ============================================================= characters

/-- What a numeral is made of. -/
theorem Numeral.chars {point : Bool} {cs : List Char} (h : Numeral point cs) :
    ∀ c ∈ cs, c.isDigit = true ∨ c = ',' ∨ c = '.' := by
  have hgrouped {cs : List Char} (h : Grouped cs) :
      ∀ c ∈ cs, c.isDigit = true ∨ c = ',' ∨ c = '.' := by
    induction h with
    | nil => exact nofun
    | digit hc _ ih => exact List.forall_mem_cons.2 ⟨.inl hc, ih⟩
    | comma _ _ ih => exact List.forall_mem_cons.2 ⟨.inr (.inl rfl), ih⟩
  cases h with
  | whole h => exact hgrouped h
  | pointed h hds =>
      exact List.forall_mem_append.2 ⟨hgrouped h,
        List.forall_mem_cons.2 ⟨.inr (.inr rfl), fun d hd => .inl (hds d hd)⟩⟩

/-- An `f` is behind a numeral and not in it. -/
theorem Numeral.no_f {point : Bool} {cs : List Char} (h : Numeral point cs) : 'f' ∉ cs := by
  intro hf
  obtain h | h | h := h.chars 'f' hf
  all_goals exact absurd h (by decide)

/-- A number has no character of more than one byte. -/
theorem IsNumber.narrow {cs : List Char} (h : IsNumber cs) : ∀ c ∈ cs, c.toNat < 128 := by
  have hnumeral {cs : List Char} (h : Unsuffixed cs) : ∀ c ∈ cs, c.toNat < 128 := by
    obtain ⟨⟨point, hnumeral⟩, -⟩ := unsuffixed_iff.1 h
    intro c hc
    obtain hdigit | rfl | rfl := hnumeral.chars c hc
    · exact bytewise_isDigit.narrow (by rw [hdigit]; nofun)
    · decide
    · decide
  cases h with
  | plain h => exact hnumeral h
  | suffixed h =>
      exact List.forall_mem_append.2 ⟨hnumeral h, List.forall_mem_singleton.2 (by decide)⟩

-- ================================================================ longest

/-- What a numeral, or the rest of one, goes on with. -/
theorem NumeralRest.cons {seen : Bool} {c : Char} {cs : List Char}
    (h : NumeralRest seen (c :: cs)) :
    (c.isDigit = true ∧ NumeralRest seen cs) ∨ (c = '.' ∧ seen = false ∧ NumeralRest true cs)
      ∨ (c = ',' ∧ seen = false ∧ startsWithDigit cs = true ∧ NumeralRest false cs) := by
  cases seen with
  | true =>
      obtain ⟨hc, hcs⟩ := List.forall_mem_cons.1 h
      exact .inl ⟨hc, hcs⟩
  | false =>
      obtain ⟨point, h⟩ := h
      generalize hwhole : c :: cs = whole at h
      cases h with
      | whole h =>
          cases h with
          | nil => cases hwhole
          | digit hc hcs =>
              obtain ⟨rfl, rfl⟩ := List.cons.inj hwhole
              exact .inl ⟨hc, false, .whole hcs⟩
          | comma hstarts hcs =>
              obtain ⟨rfl, rfl⟩ := List.cons.inj hwhole
              exact .inr (.inr ⟨rfl, rfl, hstarts, false, .whole hcs⟩)
      | pointed h hds =>
          cases h with
          | nil =>
              obtain ⟨rfl, rfl⟩ := List.cons.inj hwhole
              exact .inr (.inl ⟨rfl, rfl, hds⟩)
          | digit hc hcs =>
              obtain ⟨rfl, rfl⟩ := List.cons.inj hwhole
              exact .inl ⟨hc, true, .pointed hcs hds⟩
          | @comma front hstarts hcs =>
              obtain ⟨rfl, rfl⟩ := List.cons.inj hwhole
              refine .inr (.inr ⟨rfl, rfl, ?_, true, .pointed hcs hds⟩)
              cases front with
              | nil => cases hstarts
              | cons e front => exact hstarts

/-- No more than is split off is a numeral, or the rest of one. -/
theorem splitNumber_longest {seen : Bool} {w cs : List Char} (hfront : w <+: cs)
    (h : NumeralRest seen w) : w.length ≤ (splitNumber seen cs).1.length := by
  induction cs generalizing seen w with
  | nil =>
      rw [List.eq_nil_of_prefix_nil hfront]
      exact Nat.zero_le _
  | cons c cs ih =>
      cases w with
      | nil => exact Nat.zero_le _
      | cons d w =>
          obtain ⟨heq, hrest⟩ := List.cons_prefix_cons.1 hfront
          subst heq
          obtain ⟨hdigit, hw⟩ | ⟨rfl, rfl, hw⟩ | ⟨rfl, rfl, hstarts, hw⟩ := h.cons
          · rw [splitNumber_digit hdigit]
            exact Nat.succ_le_succ (ih hrest hw)
          · rw [splitNumber_point]
            exact Nat.succ_le_succ (ih hrest hw)
          · have hcs : startsWithDigit cs = true := by
              obtain ⟨rest, rfl⟩ := hrest
              cases w with
              | nil => cases hstarts
              | cons e w => exact hstarts
            rw [splitNumber_comma hcs]
            exact Nat.succ_le_succ (ih hrest hw)

/-- How a number that a text starts with is read. -/
inductive Reads (cs : List Char) : Piece × List Char → Prop where
  | plain {point : Bool} {spelled rest : List Char} : splitNumber false cs = (spelled, rest) →
    Numeral point spelled → StartsNumeral spelled → rest.head? ≠ some 'f' →
    Reads cs (word spelled (.literal (if point then .double else .int) (numeralText spelled)), rest)
  | suffixed {point : Bool} {spelled rest : List Char} :
    splitNumber false cs = (spelled, 'f' :: rest) → Numeral point spelled → StartsNumeral spelled →
    Reads cs (word (spelled ++ ['f']) (.literal .float (numeralText spelled)), rest)

/-- The lexer reads a number in one of these ways. -/
theorem readNumber_reads {cs : List Char} (h : StartsNumeral cs) : Reads cs (readNumber cs) := by
  obtain ⟨-, ⟨point, hnumeral⟩, -⟩ := splitNumber_found false cs
  have hstarts := splitNumber_starts h
  cases hsplit : splitNumber false cs with
  | mk spelled rest =>
      rw [hsplit] at hnumeral hstarts
      by_cases hf : rest.head? = some 'f'
      · obtain ⟨rest, rfl⟩ := List.head?_eq_some_iff.1 hf
        rw [readNumber_suffixed hsplit]
        exact .suffixed hsplit hnumeral hstarts
      · rw [readNumber_unsuffixed hsplit hf, hnumeral.contains]
        exact .plain hsplit hnumeral hstarts hf

/-- What is read is a number. -/
theorem Reads.isNumber {cs rest : List Char} {p : Piece} (h : Reads cs (p, rest)) :
    IsNumber p.chars := by
  cases h with
  | plain _ hnumeral hstarts => exact .plain (unsuffixed_iff.2 ⟨⟨_, hnumeral⟩, hstarts⟩)
  | suffixed _ hnumeral hstarts => exact .suffixed (unsuffixed_iff.2 ⟨⟨_, hnumeral⟩, hstarts⟩)

/-- No more than is read of a text is a number. -/
theorem Reads.longest {cs rest w : List Char} {p : Piece} (h : Reads cs (p, rest)) (hw : w <+: cs)
    (hnumber : IsNumber w) : w.length ≤ p.chars.length := by
  have hle {ds : List Char} (hds : ds <+: cs) (h : Unsuffixed ds) :
      ds.length ≤ (splitNumber false cs).1.length :=
    splitNumber_longest hds (unsuffixed_iff.1 h).1
  have happend := (splitNumber_found false cs).1
  cases h with
  | @plain point spelled rest hsplit _ _ hend =>
      rw [hsplit] at hle happend
      show w.length ≤ spelled.length
      cases hnumber with
      | plain h => exact hle hw h
      | @suffixed ds h =>
          have hds : ds <+: cs := (List.prefix_append ds ['f']).trans hw
          refine Nat.le_of_not_lt fun hlt => ?_
          -- all that was split off is in front of the `f`, which would come next
          have hlength : ds.length = spelled.length := by
            have hshort := hle hds h
            rw [List.length_append] at hlt
            exact Nat.le_antisymm hshort (Nat.le_of_lt_succ hlt)
          have hprefix : ds <+: spelled :=
            List.prefix_of_prefix_length_le hds ⟨rest, happend⟩ (Nat.le_of_eq hlength)
          have hsame : ds = spelled := hprefix.eq_of_length hlength
          obtain ⟨behind, hbehind⟩ := hw
          rw [← happend, hsame, List.append_assoc, List.append_cancel_left_eq] at hbehind
          have hrest : 'f' :: behind = rest := hbehind
          exact hend (by rw [← hrest]; rfl)
  | @suffixed point spelled rest hsplit =>
      rw [hsplit] at hle
      show w.length ≤ (spelled ++ ['f']).length
      rw [List.length_append]
      cases hnumber with
      | plain h => exact Nat.le_succ_of_le (hle hw h)
      | suffixed h =>
          rw [List.length_append]
          exact Nat.succ_le_succ (hle ((List.prefix_append _ _).trans hw) h)

-- ================================================================= values

section Values

variable {cs : List Char}

/-- Without its commas a run is digits. -/
theorem Grouped.digits (h : Grouped cs) : ∀ c ∈ cs.filter (· ≠ ','), c.isDigit = true := by
  intro c hc
  obtain ⟨hmem, hcomma⟩ := List.mem_filter.1 hc
  obtain hdigit | rfl | rfl := (Numeral.whole h).chars c hmem
  · exact hdigit
  · exact absurd hcomma (by decide)
  · exact absurd hmem h.no_point

/-- What starts with a digit is something without its commas. -/
theorem filter_ne_nil (h : startsWithDigit cs = true) : cs.filter (· ≠ ',') ≠ [] := by
  cases cs with
  | nil => cases h
  | cons c cs =>
      have hkept : decide (c ≠ ',') = true := decide_eq_true (isDigit_ne_comma h)
      rw [List.filter_cons, if_pos hkept]
      exact List.cons_ne_nil _ _

/-- What an integer says is digits. -/
theorem Numeral.digits (h : Numeral false cs) (hstarts : StartsNumeral cs) :
    (numeralText cs).toList ≠ [] ∧ ∀ c ∈ (numeralText cs).toList, c.isDigit = true := by
  rw [numeralText_toList]
  cases h with
  | whole h =>
      refine ⟨?_, h.digits⟩
      obtain hdigit | ⟨ds, rfl, -⟩ := hstarts
      · exact filter_ne_nil hdigit
      · exact absurd List.mem_cons_self h.no_point

/-- Digits denote a number, unless that takes more than 64 bits. -/
theorem ofText?_digits {text : String} (hne : text.toList ≠ [])
    (hdigits : ∀ c ∈ text.toList, c.isDigit = true) :
    Integer.ofText? text = if Nat.ofDigitChars 10 text.toList 0 < 2 ^ 63
      then some (Nat.ofDigitChars 10 text.toList 0 : Int) else none := by
  have hsign : Integer.splitSign text.toList = (false, text.toList) :=
    Source.splitSign_unsigned fun c hc =>
      Source.isDigit_unsigned (hdigits c (List.mem_of_mem_head? hc))
  have hfits (n : Nat) : Integer.fitsLong n = decide (n < 2 ^ 63) := by
    unfold Integer.fitsLong
    rw [← Bool.decide_and, decide_eq_decide]
    omega
  unfold Integer.ofText?
  rw [hsign]
  show (Integer.natOfText? text.toList).bind (fun n => Integer.checked n) = _
  rw [Source.natOfText?_digits hne hdigits, Option.bind_some]
  unfold Integer.checked
  rw [hfits]
  simp only [decide_eq_true_eq]

/-- Digits are split off up to what is none. -/
theorem span_digits {ds : List Char} (hds : ∀ d ∈ ds, d.isDigit = true) (rest : List Char)
    (hrest : ∀ d ∈ rest.head?, d.isDigit = false) :
    (ds ++ rest).span Char.isDigit = (ds, rest) := by
  obtain ⟨htake, hdrop⟩ := takeWhile_apart hds hrest
  rw [List.span_eq_takeWhile_dropWhile, htake, hdrop]

/-- Digits with a point behind so many of them, or without one, are a magnitude. -/
theorem readMagnitude_isSome {whole : List Char} (hwhole : ∀ c ∈ whole, c.isDigit = true) :
    (whole ≠ [] → (Floating.readMagnitude whole).isSome = true)
      ∧ ∀ fraction : List Char, (∀ c ∈ fraction, c.isDigit = true) → whole ≠ [] ∨ fraction ≠ [] →
        (Floating.readMagnitude (whole ++ '.' :: fraction)).isSome = true := by
  constructor
  · intro hne
    have hread := span_digits hwhole [] nofun
    rw [List.append_nil] at hread
    unfold Floating.readMagnitude
    rw [hread]
    dsimp only
    rw [List.isEmpty_eq_false_iff.2 hne]
    rfl
  · intro fraction hfraction hne
    have hread := span_digits hwhole ('.' :: fraction) fun d hd => by
      rw [← Option.some.inj hd]
      decide
    have hbehind := span_digits hfraction [] nofun
    rw [List.append_nil] at hbehind
    have hempty : (whole.isEmpty && fraction.isEmpty) = false := by
      rw [Bool.and_eq_false_iff, List.isEmpty_eq_false_iff, List.isEmpty_eq_false_iff]
      exact hne
    unfold Floating.readMagnitude
    simp only [hread, hbehind, hempty]
    rfl

/-- What a number says denotes a double. -/
theorem Numeral.real {point : Bool} (h : Numeral point cs) (hstarts : StartsNumeral cs) :
    (Floating.ofText? (numeralText cs)).isSome = true := by
  have hmagnitude : (Floating.readMagnitude (numeralText cs).toList).isSome = true := by
    rw [numeralText_toList]
    cases h with
    | whole h =>
        have hne := ((Numeral.whole h).digits hstarts).1
        rw [numeralText_toList] at hne
        exact (readMagnitude_isSome h.digits).1 hne
    | @pointed front ds h hds =>
        rw [List.filter_append, List.filter_cons_of_pos (by decide), filter_digits hds]
        refine (readMagnitude_isSome h.digits).2 ds hds ?_
        cases front with
        | nil =>
            refine .inr ?_
            rintro rfl
            obtain hdigit | ⟨_, heq, hdigit⟩ := hstarts
            · exact absurd (show Char.isDigit '.' = true from hdigit) (by decide)
            · obtain ⟨-, rfl⟩ := List.cons.inj heq
              cases hdigit
        | cons c front =>
            obtain hdigit | ⟨_, heq, -⟩ := hstarts
            · exact .inl (filter_ne_nil hdigit)
            · obtain ⟨rfl, -⟩ := List.cons.inj heq
              exact absurd List.mem_cons_self h.no_point
  have hunsigned : ∀ c ∈ (numeralText cs).toList.head?, c ≠ '+' ∧ c ≠ '-' := by
    intro c hc
    have hmem := List.mem_of_mem_head? hc
    rw [numeralText_toList] at hmem
    obtain hdigit | rfl | rfl := h.chars c (List.mem_of_mem_filter hmem)
    · exact Source.isDigit_unsigned hdigit
    · decide
    · decide
  obtain ⟨bits, hbits⟩ := Option.isSome_iff_exists.1 hmagnitude
  unfold Floating.ofText?
  rw [Source.splitSign_unsigned hunsigned]
  dsimp only
  rw [hbits]
  rfl

end Values

end Piece

/-- Whether a literal is what the characters of a number call for. -/
structure NumberMade (chars : List Char) (kind : LiteralKind) (text : String) : Prop where
  /-- An `f` behind makes a float, else a point a double. -/
  kindOf : kind = if chars.getLast? = some 'f' then .float
    else if '.' ∈ chars then .double else .int
  /-- The text leaves commas and the `f` out. -/
  textOf : text = String.ofList (chars.filter fun c => c ≠ ',' ∧ c ≠ 'f')
  /-- That of an integer is digits. -/
  digits : kind = .int → text.toList ≠ [] ∧ ∀ c ∈ text.toList, c.isDigit = true
  /-- It denotes their number, and nothing only if that is too large. -/
  value : kind = .int → ∀ pos, (NumberLiteral.mk .int text pos).toInt =
    if Nat.ofDigitChars 10 text.toList 0 < 2 ^ 63
      then .ok (Nat.ofDigitChars 10 text.toList 0 : Int) else .error (.malformed text)
  /-- Any other text denotes a double. -/
  real : kind ≠ .int → ∃ x, Floating.ofText? text = some x
    ∧ ∀ pos, (NumberLiteral.mk kind.ty text pos).number = .ok (.real x)

namespace Piece

/-- The text of a numeral is it without commas and `f`. -/
theorem numeralText_eq {point : Bool} {cs : List Char} (h : Numeral point cs) :
    numeralText cs = String.ofList (cs.filter fun c => c ≠ ',' ∧ c ≠ 'f') := by
  refine congrArg String.ofList (List.filter_congr fun c hc => ?_)
  have hne : c ≠ 'f' := fun heq => h.no_f (heq ▸ hc)
  simp [hne]

/-- A literal of a floating kind denotes what its text does. -/
theorem literal_real {kind : LiteralKind} {text : String} (hkind : kind.ty.isFloating = true)
    (h : (Floating.ofText? text).isSome = true) : ∃ x, Floating.ofText? text = some x
      ∧ ∀ pos, (NumberLiteral.mk kind.ty text pos).number = .ok (.real x) := by
  obtain ⟨x, hx⟩ := Option.isSome_iff_exists.1 h
  refine ⟨x, hx, fun pos => ?_⟩
  unfold NumberLiteral.number
  rw [if_pos hkind, hx]

/-- A literal of digits denotes their number, if 64 bits hold it. -/
theorem literal_value {text : String} (hne : text.toList ≠ [])
    (hdigits : ∀ c ∈ text.toList, c.isDigit = true) (pos : Position) :
    (NumberLiteral.mk .int text pos).toInt = if Nat.ofDigitChars 10 text.toList 0 < 2 ^ 63
      then .ok (Nat.ofDigitChars 10 text.toList 0 : Int) else .error (.malformed text) := by
  have hint : (NumberLiteral.mk .int text pos).ty.isFloating = false := rfl
  unfold NumberLiteral.toInt NumberLiteral.number
  rw [hint, if_neg Bool.false_ne_true, ofText?_digits hne hdigits]
  by_cases hsmall : Nat.ofDigitChars 10 text.toList 0 < 2 ^ 63
  · rw [if_pos hsmall, if_pos hsmall]
    rfl
  · rw [if_neg hsmall, if_neg hsmall]
    rfl

/-- What is read of a text is what its characters call for. -/
theorem Reads.made {cs rest : List Char} {p : Piece} (h : Reads cs (p, rest)) :
    ∃ kind text, p.lexeme = some (.literal kind text) ∧ NumberMade p.chars kind text := by
  cases h with
  | @plain point spelled rest _ hnumeral hstarts _ =>
      refine ⟨_, _, rfl, ?_⟩
      show NumberMade spelled _ _
      have hlast : spelled.getLast? ≠ some 'f' := fun hlast =>
        hnumeral.no_f (List.mem_of_getLast? hlast)
      have hpoint := hnumeral.contains
      rw [List.contains_eq_mem] at hpoint
      cases point with
      | true =>
          refine ⟨?_, numeralText_eq hnumeral, nofun, nofun, fun _ => ?_⟩
          · rw [if_neg hlast, if_pos (of_decide_eq_true hpoint)]
            rfl
          · exact literal_real rfl (hnumeral.real hstarts)
      | false =>
          obtain ⟨hne, hdigits⟩ := hnumeral.digits hstarts
          refine ⟨?_, numeralText_eq hnumeral, fun _ => ⟨hne, hdigits⟩,
            fun _ => literal_value hne hdigits, fun hint => absurd rfl hint⟩
          rw [if_neg hlast, if_neg (of_decide_eq_false hpoint)]
          rfl
  | @suffixed point spelled rest _ hnumeral hstarts =>
      refine ⟨.float, numeralText spelled, rfl, ?_⟩
      show NumberMade (spelled ++ ['f']) _ _
      refine ⟨?_, ?_, nofun, nofun, fun _ => literal_real rfl (hnumeral.real hstarts)⟩
      · rw [if_pos List.getLast?_concat]
      · rw [List.filter_append, numeralText_eq hnumeral]
        exact congrArg String.ofList (List.append_nil _).symm

end Piece

-- ================================================================ numbers

/-- Whether literals of this kind are numbers in the source. -/
def LiteralKind.isNumber : LiteralKind → Bool
  | .int | .float | .double => true
  | .bool | .char | .string => false

/-- Whether bytes are the longest number that others start with. -/
structure LongestNumber (ahead found : List UInt8) : Prop where
  starts : found <+: ahead
  number : Piece.IsNumber (found.map charOfByte)
  longest : ∀ w, w <+: ahead → Piece.IsNumber (w.map charOfByte) → w.length ≤ found.length

/-- The numbers of a source text among its segments. -/
structure Numbered (source : String) (segments : List (Position × Piece)) : Prop where
  /-- The tokens are the words of the segments, in order. -/
  tokens : (tokenize source).1 = segments.filterMap fun s => s.2.lexeme.map fun l => ⟨l, s.1⟩
  /-- A segment is a number exactly if some of the bytes from it on are one. -/
  starts : ∀ s ∈ segments,
    (∃ kind text, s.2.lexeme = some (.literal kind text) ∧ kind.isNumber = true)
      ↔ ∃ w, w <+: (bytesOf source).drop s.1.offset ∧ Piece.IsNumber (w.map charOfByte)
  /-- It is then the longest of these, and read as what it is. -/
  read : ∀ s ∈ segments, ∀ kind text, s.2.lexeme = some (.literal kind text) →
    kind.isNumber = true →
    LongestNumber ((bytesOf source).drop s.1.offset) (bytesOf (String.ofList s.2.chars))
      ∧ NumberMade s.2.chars kind text

-- ---------------------------------------------------------- byte by byte

/-- Characters of one byte are their bytes. -/
theorem encode_narrow {cs : List Char} (h : ∀ c ∈ cs, c.toNat < 128) :
    (encode cs).map charOfByte = cs := by
  induction cs with
  | nil => rfl
  | cons c cs ih =>
      obtain ⟨hc, hcs⟩ := List.forall_mem_cons.1 h
      obtain ⟨b, hb, hchar⟩ := encoded_narrow hc
      rw [encode_cons, hb, List.singleton_append, List.map_cons, hchar, ih hcs]

/-- Bytes below 128 in front of others are characters in front of theirs. -/
theorem front_of_narrow {w : List UInt8} {cs : List Char} (h : w <+: encode cs)
    (hw : ∀ b ∈ w, b.toNat < 128) : w.map charOfByte <+: cs := by
  induction w generalizing cs with
  | nil => exact List.nil_prefix
  | cons b w ih =>
      obtain ⟨hb, hw⟩ := List.forall_mem_cons.1 hw
      cases cs with
      | nil => exact absurd (List.eq_nil_of_prefix_nil h) (List.cons_ne_nil _ _)
      | cons c cs =>
          obtain hc | hc := Nat.lt_or_ge c.toNat 128
          · obtain ⟨e, he, hchar⟩ := encoded_narrow hc
            rw [encode_cons, he, List.singleton_append] at h
            obtain ⟨rfl, hrest⟩ := List.cons_prefix_cons.1 h
            exact List.cons_prefix_cons.2 ⟨hchar, ih hrest hw⟩
          · obtain ⟨e, es, he, -⟩ := encoded_cons c
            rw [encode_cons, he, List.cons_append] at h
            obtain ⟨rfl, -⟩ := List.cons_prefix_cons.1 h
            have hwide := encoded_wide hc b (he ▸ List.mem_cons_self)
            omega

/-- A number in front of the bytes of characters is one in front of these. -/
theorem number_front {w : List UInt8} {cs : List Char} (h : w <+: encode cs)
    (hw : Piece.IsNumber (w.map charOfByte)) : w.map charOfByte <+: cs := by
  refine front_of_narrow h fun b hb => ?_
  rw [← charOfByte_toNat]
  exact hw.narrow _ (List.mem_map_of_mem hb)

-- --------------------------------------------------------------- segments

/-- A segment is the first piece of the bytes from its place on. -/
theorem segment_next {source : String} {s : Position × Piece} (h : s ∈ segmentsOf source) :
    ∃ c cs, (bytesOf source).drop s.1.offset = encode (c :: cs) ∧ (Piece.next c cs).1 = s.2 := by
  obtain ⟨front, c, cs, htext, hplace, hnext⟩ := segment_split h
  refine ⟨c, cs, ?_, hnext⟩
  rw [hplace, Position.offset_of_front, ← encode_length, bytesOf_eq, htext, encode_append,
    List.drop_left']
  rfl

/-- What is read as a number starts as one. -/
theorem Piece.Spells.starts {cs : List Char} {kind : LiteralKind} {text : String}
    {faults : List (Nat × LexicalFault)} (h : Spells cs (.literal kind text) faults)
    (hkind : kind.isNumber = true) : StartsNumeral cs := by
  cases h with
  | integer _ hstarts => exact hstarts
  | double _ hstarts => exact hstarts
  | float _ hstarts => exact hstarts.append _
  | _ => cases hkind

/-- The bytes of what is read of characters are the longest number in front of
theirs. -/
theorem Piece.Reads.bytes {ahead rest : List Char} {p : Piece} (h : Reads ahead (p, rest))
    (hfront : p.chars ++ rest = ahead) :
    LongestNumber (encode ahead) (bytesOf (String.ofList p.chars)) := by
  have hchars := encode_narrow h.isNumber.narrow
  rw [piece_bytes]
  refine ⟨?_, by rw [hchars]; exact h.isNumber, fun w hw hnumber => ?_⟩
  · rw [← hfront, encode_append]
    exact List.prefix_append _ _
  · have hlength := h.longest (number_front hw hnumber) hnumber
    rwa [← hchars, List.length_map, List.length_map] at hlength

/-- Numbers are read as far as they go, wherever one starts, and as what they are. -/
theorem tokenize_numbered (source : String) : Numbered source (segmentsOf source) := by
  -- a segment is a number exactly if the text from it on starts as one
  have hreads {s : Position × Piece} {c : Char} {cs : List Char}
      (hnext : (Piece.next c cs).1 = s.2) (hstarts : Piece.StartsNumeral (c :: cs)) :
      Piece.Reads (c :: cs) (s.2, (Piece.next c cs).2) := by
    rw [← hnext, Piece.next_number hstarts]
    exact Piece.readNumber_reads hstarts
  have hstarts {s : Position × Piece} {c : Char} {cs : List Char}
      (hnext : (Piece.next c cs).1 = s.2) {kind : LiteralKind} {text : String}
      (hlexeme : s.2.lexeme = some (.literal kind text)) (hkind : kind.isNumber = true) :
      Piece.StartsNumeral (c :: cs) := by
    obtain ⟨haccounted, happend⟩ := Piece.next_accounted c cs
    rw [hnext] at haccounted happend
    rw [← happend]
    exact ((haccounted.spells hlexeme).starts hkind).append _
  refine ⟨rfl, fun s hs => ⟨?_, ?_⟩, fun s hs kind text hlexeme hkind => ?_⟩
  · rintro ⟨kind, text, hlexeme, hkind⟩
    obtain ⟨c, cs, hahead, hnext⟩ := segment_next hs
    have hfront := (Piece.next_accounted c cs).2
    rw [hnext] at hfront
    have hlongest := (hreads hnext (hstarts hnext hlexeme hkind)).bytes hfront
    rw [hahead]
    exact ⟨_, hlongest.starts, hlongest.number⟩
  · rintro ⟨w, hw, hnumber⟩
    obtain ⟨c, cs, hahead, hnext⟩ := segment_next hs
    rw [hahead] at hw
    obtain ⟨rest, hrest⟩ := number_front hw hnumber
    have hstarts := hnumber.starts.append rest
    rw [hrest] at hstarts
    obtain ⟨kind, text, hlexeme, hmade⟩ := (hreads hnext hstarts).made
    refine ⟨kind, text, hlexeme, ?_⟩
    rw [hmade.kindOf]
    split
    · rfl
    · split <;> rfl
  · obtain ⟨c, cs, hahead, hnext⟩ := segment_next hs
    have hfront := (Piece.next_accounted c cs).2
    rw [hnext] at hfront
    have hread := hreads hnext (hstarts hnext hlexeme hkind)
    obtain ⟨kind', text', hlexeme', hmade⟩ := hread.made
    obtain ⟨rfl, rfl⟩ := Lexeme.literal.inj (Option.some.inj (hlexeme'.symm.trans hlexeme))
    rw [hahead]
    exact ⟨hread.bytes hfront, hmade⟩

/-- Commas, points and letters in any order end a number where it can go on no
more. -/
example : (tokenize "1,000,000 2.5f 7f .5 1,,2 3.4.5f 6,7.8,9").1.map (·.lexeme)
    = [.literal .int "1000000", .literal .float "2.5", .literal .float "7", .literal .double ".5",
      .literal .int "1", .symbol .comma, .symbol .comma, .literal .int "2", .literal .double "3.4",
      .literal .float ".5", .literal .double "67.8", .symbol .comma, .literal .int "9"] := by
  decide +kernel

end MiniC
