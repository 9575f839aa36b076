/-
Parsing steps read backwards: what a step has done that succeeded.

# Sequences and tokens

A sequence succeeds exactly when its parts do, a token that was looked at is the
one ahead, and a token that was taken is gone from there. With these a rule that
succeeded is taken apart into the tokens it has met.

# Asking twice

Where a rule asks twice for the token ahead, as a name does that may be that of
an aggregate in front of its scope accessor, the two answers are brought together
here (`typeOfName_ok`): nothing was taken in between, so both are about one token.
Consumed by the steps run forward, and by the names of an expression.
-/
import MiniC.Parser.Declaration
import MiniC.Proofs.Parser.Table

namespace MiniC.Parser

variable {α β : Type}

-- ============================================================== sequences

/-- A sequence succeeds exactly when its parts do, one after the other. -/
theorem bind_ok {x : Parser α} {f : α → Parser β} {s t : ParserState} {b : β} :
    (x >>= f) s = .ok b t ↔ ∃ a u, x s = .ok a u ∧ f a u = .ok b t := by
  show EStateM.bind x f s = _ ↔ _
  unfold EStateM.bind
  cases hx : x s with
  | error e u =>
      constructor
      · intro h
        cases h
      · rintro ⟨a, u, h, -⟩
        cases h
  | ok a u =>
      constructor
      · intro h
        exact ⟨a, u, rfl, h⟩
      · rintro ⟨a', u', h, hf⟩
        cases h
        exact hf

/-- An answer is given in the state it is given in. -/
theorem pure_ok {a b : α} {s t : ParserState} :
    (pure a : Parser α) s = .ok b t ↔ a = b ∧ s = t := by
  show EStateM.Result.ok a s = .ok b t ↔ _
  rw [EStateM.Result.ok.injEq]

-- ================================================================= tokens

/-- A token that was looked at is the one at that place ahead, and nothing was
taken. -/
theorem peekToken_ok {i : Nat} {s t : ParserState} {token : Option Token}
    (h : peekToken i s = .ok token t) : token = s.tokens[i]? ∧ t = s := by
  unfold peekToken at h
  split at h
  · cases h
    exact ⟨rfl, rfl⟩
  · cases h

theorem peek_ok {i : Nat} {s t : ParserState} {lexeme : Option Lexeme}
    (h : peek i s = .ok lexeme t) : lexeme = s.tokens[i]?.map (·.lexeme) ∧ t = s := by
  obtain ⟨token, u, htoken, hpure⟩ := bind_ok.1 h
  obtain ⟨rfl, rfl⟩ := peekToken_ok htoken
  obtain ⟨rfl, rfl⟩ := pure_ok.1 hpure
  exact ⟨rfl, rfl⟩

/-- A token that was taken was the first, and its place is the last one seen. -/
theorem take_ok {expected : String} {s t : ParserState} {token : Token}
    (h : take expected s = .ok token t) :
    ∃ rest, s.tokens = token :: rest ∧ t = { s with tokens := rest, last := token.pos } := by
  unfold take at h
  obtain ⟨_, u, hget, h⟩ := bind_ok.1 h
  cases hget
  cases htokens : s.tokens with
  | nil =>
      rw [htokens] at h
      cases h
  | cons first rest =>
      rw [htokens] at h
      obtain ⟨_, w, hset, hpure⟩ := bind_ok.1 h
      cases hset
      obtain ⟨rfl, rfl⟩ := pure_ok.1 hpure
      exact ⟨rest, rfl, rfl⟩

/-- Whether a symbol is ahead is answered by the first token and changes nothing. -/
theorem atSymbol_ok {symbol : Symbol} {s t : ParserState} {b : Bool}
    (h : atSymbol symbol s = .ok b t) :
    b = (s.tokens[0]?.map (·.lexeme) == some (.symbol symbol)) ∧ t = s := by
  obtain ⟨lexeme, u, hpeek, hpure⟩ := bind_ok.1 h
  obtain ⟨rfl, rfl⟩ := peek_ok hpeek
  obtain ⟨rfl, rfl⟩ := pure_ok.1 hpure
  exact ⟨rfl, rfl⟩

/-- Where a scope accessor is ahead, the question for any accessor says so too. -/
theorem atAccessor_ok {s t : ParserState} {b : Bool} (h : atAccessor s = .ok b t) :
    t = s ∧ (s.tokens[0]?.map (·.lexeme) = some (.symbol .scope) → b = true) := by
  unfold atAccessor at h
  obtain ⟨lexeme, u, hpeek, hat⟩ := bind_ok.1 h
  obtain ⟨rfl, rfl⟩ := peek_ok hpeek
  cases hlexeme : u.tokens[0]?.map (·.lexeme) with
  | none =>
      rw [hlexeme] at hat
      obtain ⟨-, rfl⟩ := pure_ok.1 hat
      exact ⟨rfl, nofun⟩
  | some lexeme =>
      rw [hlexeme] at hat
      cases lexeme with
      | symbol symbol =>
          obtain ⟨rfl, rfl⟩ := pure_ok.1 hat
          refine ⟨rfl, fun hscope => ?_⟩
          cases hscope
          rfl
      | _ =>
          obtain ⟨-, rfl⟩ := pure_ok.1 hat
          exact ⟨rfl, nofun⟩

-- ================================================================== names

/-- A name has a type, or is that of an aggregate in front of its scope
accessor. -/
theorem typeOfName_ok {name : String} {pos : Position} {s t : ParserState} {ty : Ty}
    (h : typeOfName name pos s = .ok ty t) :
    t = s ∧ (s.table.sight.find? name = some ty
      ∨ ty = .named name ∧ s.tokens[0]?.map (·.lexeme) = some (.symbol .scope)) := by
  unfold typeOfName at h
  obtain ⟨_, u, hget, h⟩ := bind_ok.1 h
  cases hget
  cases hlookup : s.table.lookup? name with
  | some binding =>
      rw [hlookup] at h
      obtain ⟨rfl, rfl⟩ := pure_ok.1 h
      refine ⟨rfl, Or.inl ?_⟩
      rw [SymbolTable.find?_sight, hlookup]
      rfl
  | none =>
      rw [hlookup] at h
      obtain ⟨b, u, hat, h⟩ := bind_ok.1 h
      obtain ⟨rfl, rfl⟩ := atSymbol_ok hat
      split at h
      · rename_i hboth
        obtain ⟨rfl, rfl⟩ := pure_ok.1 h
        exact ⟨rfl, Or.inr ⟨rfl, eq_of_beq (Bool.and_eq_true_iff.1 hboth).2⟩⟩
      · cases h

end MiniC.Parser
