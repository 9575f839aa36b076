/-
Every reported position is exact.

# Lexical positions

The places of the tokens and of the lexical errors lie behind the first
characters of the source, in the order of the tokens. Pieces of the text are
placed one behind the other, each where the one before it ends, so the place of
a piece has the line, the column and the offset of the characters in front of it
(`tokens_exact`), and no two begin at one place (`tokens_increasing`).

# Positions of the parser

Notes, warnings and the fault that ends a parse are at places of tokens, because
the parser has no other places.

`frontend_positions` puts these together for whatever the front end reports of a
source text.
Consumed by the accounts of carets, of strict reports and of constant conditions.
-/
import MiniC.Pipeline
import MiniC.Proofs.Parser.Citing
import MiniC.Proofs.Token.Pieces

namespace MiniC

-- ================================================================= tokens

namespace Piece

/-- Characters take bytes. -/
theorem lt_behind {cs : List Char} (h : cs ≠ []) (pos : Position) :
    pos.offset < (pos.advanceAll cs).offset := by
  obtain ⟨c, cs, rfl⟩ := List.exists_cons_of_ne_nil h
  exact Nat.lt_of_lt_of_le (pos.lt_advance c) (Position.le_advanceAll _ cs)

/-- Pieces are placed from left to right. -/
theorem Cuts.increasing {cs : List Char} {ps : List Piece} (h : Cuts cs ps) (pos : Position) :
    (place pos ps).Pairwise (fun s t => s.1.offset < t.1.offset)
      ∧ ∀ s ∈ place pos ps, pos.offset ≤ s.1.offset := by
  induction h generalizing pos with
  | nil => exact ⟨.nil, nofun⟩
  | @cons rest p ps haccounted hcuts ih =>
      obtain ⟨hpairwise, hle⟩ := ih (pos.advanceAll p.chars)
      have hlt := lt_behind haccounted.ne_nil pos
      refine ⟨.cons (fun s hs => ?_) hpairwise,
        List.forall_mem_cons.2 ⟨Nat.le_refl _, fun s hs => ?_⟩⟩
      · exact Nat.lt_of_lt_of_le hlt (hle s hs)
      · exact Nat.le_trans (Nat.le_of_lt hlt) (hle s hs)

end Piece

/-- A token is at its place. -/
theorem tokens_exact {source : String} {token : Token} (h : token ∈ (tokenize source).1) :
    token.pos.Exact source := by
  obtain ⟨s, hs, hpos, -⟩ := mem_tokens h
  obtain ⟨front, behind, hsplit, hplace⟩ := (Piece.ofText_cuts source.toList).split hs
  rw [hpos, hplace]
  exact Position.exact_of_front hsplit

/-- Tokens come from left to right. -/
theorem tokens_increasing (source : String) :
    (tokenize source).1.Pairwise fun a b => a.pos.offset < b.pos.offset := by
  refine List.Pairwise.filterMap _ (fun s t hlt a ha b hb => ?_)
    ((Piece.ofText_cuts source.toList).increasing .start).1
  obtain ⟨l, hl, rfl⟩ := Option.map_eq_some_iff.1 ha
  obtain ⟨m, hm, rfl⟩ := Option.map_eq_some_iff.1 hb
  exact hlt

/-- A lexical error is in the middle of a segment or at its start. -/
theorem faults_exact {source : String} {d : Diagnostic} (h : d ∈ (tokenize source).2) :
    d.severity = .error ∧ d.pos.Exact source := by
  obtain ⟨s, hs, hd⟩ := List.mem_flatMap.1 h
  obtain ⟨f, hf, rfl⟩ := List.mem_map.1 hd
  obtain ⟨front, behind, hsplit, hplace⟩ := (Piece.ofText_cuts source.toList).split hs
  refine ⟨rfl, ?_⟩
  show (s.1.advanceAll (s.2.chars.take f.1)).Exact source
  rw [hplace, ← Position.advanceAll_append]
  have hbehind : source.toList
      = (front ++ s.2.chars.take f.1) ++ (s.2.chars.drop f.1 ++ behind) := by
    rw [hsplit, List.append_assoc, ← List.append_assoc (s.2.chars.take f.1), List.take_append_drop]
  exact Position.exact_of_front hbehind

-- ================================================================ reports

/-- What is added is kept behind the entries, each as the report admits it. -/
theorem Report.entries_append (r : Report) (ds : List Diagnostic) :
    (r.append ds).entries = r.entries ++ ds.map (admitted r.strict) := by
  induction ds generalizing r with
  | nil => exact (List.append_nil _).symm
  | cons d ds ih =>
      show ((r.push d).append ds).entries = _
      rw [ih]
      show r.entries ++ [admitted r.strict d] ++ ds.map (admitted r.strict) = _
      rw [List.append_assoc]
      rfl

/-- Errors are kept as they are. -/
theorem Report.append_entries {ds : List Diagnostic} (h : ∀ d ∈ ds, d.severity = .error)
    (r : Report) : (r.append ds).entries = r.entries ++ ds := by
  have hadmitted : ∀ d ∈ ds, admitted r.strict d = id d := by
    intro d hd
    unfold admitted
    rw [h d hd]
    cases r.strict <;> rfl
  rw [Report.entries_append, List.map_congr_left hadmitted, List.map_id]

/-- What the front end reports behind what it was given: the lexical errors,
then what the parser adds and the fault that ends the parse. -/
theorem frontend_entries (source : String) (report : Report) :
    ∃ parsed, (frontend source report).2.entries
        = report.entries ++ (tokenize source).2 ++ parsed
      ∧ ∀ d ∈ parsed, ∃ token ∈ (tokenize source).1, d.pos = token.pos := by
  obtain ⟨⟨added, hadded, hplaces⟩, hcited⟩ :=
    Parser.parse_cites (tokenize source).1 (report.append (tokenize source).2)
  rw [Report.append_entries fun d hd => (faults_exact hd).1] at hadded
  unfold frontend
  dsimp only
  cases hparse : parse (tokenize source).1 (report.append (tokenize source).2) with
  | mk result behind =>
      rw [hparse] at hadded hcited
      cases result with
      | ok p =>
          refine ⟨added, ?_, hplaces⟩
          dsimp only
          split <;> exact hadded
      | error e =>
          refine ⟨added ++ [Report.admitted behind.strict e.diagnostic], ?_, fun d hd => ?_⟩
          · show behind.entries ++ _ = _
            rw [hadded, List.append_assoc _ added]
          · obtain hd | hd := List.mem_append.1 hd
            · exact hplaces d hd
            · rw [List.mem_singleton.1 hd, Parser.admitted_pos]
              exact hcited e rfl e.pos e.pos_mem

/-- Whatever is reported of a source text is at an exact position: its tokens,
which come from left to right, the lexical errors, and what the parser adds.
The parser adds entries at places of tokens only, and these are all that its
failure cites. -/
theorem frontend_positions (source : String) (report : Report) :
    (∀ token ∈ (tokenize source).1, token.pos.Exact source)
    ∧ ((tokenize source).1.Pairwise fun a b => a.pos.offset < b.pos.offset)
    ∧ (∃ parsed, (frontend source report).2.entries
          = report.entries ++ (tokenize source).2 ++ parsed
        ∧ (∀ d ∈ (tokenize source).2 ++ parsed, d.pos.Exact source)
        ∧ ∀ d ∈ parsed, ∃ token ∈ (tokenize source).1, d.pos = token.pos)
    ∧ ∀ e, (parse (tokenize source).1 (report.append (tokenize source).2)).1 = .error e →
        ∀ p ∈ e.positions, ∃ token ∈ (tokenize source).1, p = token.pos := by
  obtain ⟨parsed, hentries, hplaces⟩ := frontend_entries source report
  refine ⟨fun _ => tokens_exact, tokens_increasing source,
    ⟨parsed, hentries, fun d hd => ?_, hplaces⟩, (Parser.parse_cites _ _).2⟩
  obtain hd | hd := List.mem_append.1 hd
  · exact (faults_exact hd).2
  · obtain ⟨token, htoken, hpos⟩ := hplaces d hd
    rw [hpos]
    exact tokens_exact htoken

/-- The fault of the tokens of a text, if they are no program. -/
def faultOf (source : String) : Option ParseError :=
  match (parse (tokenize source).1 ((Report.empty false).append (tokenize source).2)).1 with
  | .error e => some e
  | .ok _ => none

/-- A text with a fault does not parse. -/
theorem faultOf_some {source : String} {e : ParseError} (h : faultOf source = some e) :
    (parse (tokenize source).1 ((Report.empty false).append (tokenize source).2)).1 = .error e := by
  unfold faultOf at h
  split at h
  · rename_i heq
    rw [heq, Option.some.inj h]
  · cases h

/-- A name that is declared twice, behind a text with a line's end in it and a
character of three bytes. -/
def redeclared : String := "string a = \"\\\n€\";\nint a;"

/-- Both declarations of `redeclared` are cited where their names stand. -/
theorem redeclared_positions :
    ∃ e, (parse (tokenize redeclared).1 ((Report.empty false).append (tokenize redeclared).2)).1
          = .error e
      ∧ e.positions = [⟨3, 5, 24⟩, ⟨1, 8, 7⟩]
      ∧ (∀ p ∈ e.positions, ∃ token ∈ (tokenize redeclared).1, p = token.pos)
      ∧ ∀ token ∈ (tokenize redeclared).1, token.pos.Exact redeclared := by
  have h : faultOf redeclared = some (.redefinition "a" ⟨3, 5, 24⟩ ⟨1, 8, 7⟩) := by decide +kernel
  have hpositions := frontend_positions redeclared (.empty false)
  exact ⟨_, faultOf_some h, rfl, hpositions.2.2.2 _ (faultOf_some h), hpositions.1⟩

end MiniC
