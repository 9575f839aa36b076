/-
The names in sight of a parse. A parse stands in a context: the program in front of
the declaration being read, the function around it, and the names in sight, scope by
scope. Steps are judged by the context they lead to: a token is taken without a trace
there, and what is declared joins the innermost scope, in which it is new.

# Names

An expression leaves its context as it is, and makes sense there (`Fine`). Of all
expressions only names have to be looked at for that. A name that is not in sight may
still be that of an aggregate, if its scope accessor is ahead; so what was found ahead
has to be the token that is taken for an accessor, and names are read backwards from
what they came to (`identifier_ok`).

Consumed by the proof that accepted programs are well formed.
-/
import MiniC.Proofs.Parser.Traversal
import MiniC.Proofs.Source.WellFormed

namespace MiniC.Parser

-- =============================================================== contexts

/-- Where a parse stands. -/
structure Context where
  program : Program
  function : Option (String × Ty)
  sight : Sight

/-- Whether a parse stands in a context. -/
structure At (c : Context) (s : ParserState) : Prop where
  program : s.program = c.program
  function : s.function = c.function
  sound : s.table.Sound
  sight : s.table.sight = c.sight

variable {c c' : Context}

/-- Tokens and remarks are no part of the context. -/
theorem At.same {s : ParserState} (h : At c s) (tokens : List Token) (last : Position)
    (report : Report) : At c { s with tokens, last, report } :=
  ⟨h.program, h.function, h.sound, h.sight⟩

/-- Whether a name joins the innermost scope, where it is new. -/
structure Context.Binds (c : Context) (name : String) (ty : Ty) (c' : Context) : Prop where
  nonempty : c.sight ≠ []
  fresh : c.sight.Fresh name
  behind : c' = { c with sight := c.sight.bind name ty }

/-- Judged by the context that a step leads to. -/
def standing : Judgement where
  Index := Context
  Sees := At
  Holds := Leads At fun _ _ => True
  token c _ c' := c' = c
  answer := .answer
  chain := .chain
  look hx _ hf := .look hx hf
  stop _ := Leads.stop fun _ _ => trivial
  take _ _ := .take (fun _ _ _ hs _ => ⟨_, hs.same _ _ _, rfl⟩)
    fun _ _ _ => trivial

/-- A declaration brings a name into the innermost scope, where it is new. -/
theorem declare_stands (name : String) (ty : Ty) (pos : Position) :
    standing.Holds c (declare name ty pos) fun _ c' => c.Binds name ty c' := by
  refine Leads.declare (fun s table hs hinsert => ?_) fun _ _ _ _ => trivial
  obtain ⟨scope, outer, hview, hfresh, hview'⟩ := SymbolTable.view_insert hs.sound hinsert
  have hold : c.sight = (scope.map fun b => (b.1, b.2.ty))
      :: outer.map fun scope => scope.map fun b => (b.1, b.2.ty) := by
    rw [← hs.sight]
    unfold SymbolTable.sight
    rw [hview]
    rfl
  have hnew : table.sight = c.sight.bind name ty := by
    unfold SymbolTable.sight
    rw [hview', hold]
    rfl
  refine ⟨{ c with sight := c.sight.bind name ty }, ⟨hs.program, hs.function,
    SymbolTable.insert_sound hs.sound hinsert, hnew⟩, ?_, ?_, rfl⟩
  · rw [hold]
    exact List.cons_ne_nil _ _
  · unfold Sight.Fresh
    rw [hold]
    show (scope.map fun b => (b.1, b.2.ty)).lookup name = none
    rw [lookup_view (fun b : Binding => b.ty), hfresh]
    rfl

/-- A scope that is opened is empty and in front. -/
theorem sight_push {t : SymbolTable} (h : t.Sound) : t.push.sight = [] :: t.sight := by
  unfold SymbolTable.sight
  rw [SymbolTable.view_push h]
  rfl

/-- A scope that is closed takes its names along. -/
theorem sight_pop? {t t' : SymbolTable} (h : t.Sound) (hpop : t.pop? = some t') :
    t'.sight = t.sight.drop 1 := by
  unfold SymbolTable.sight
  rw [SymbolTable.view_pop? h hpop, List.map_drop]

/-- A context in a new scope. -/
def Context.enter (f : Option (String × Ty)) (c : Context) : Context :=
  { c with function := f, sight := [] :: c.sight }

/-- Whether the scope entered in a context is left for it again. -/
structure Context.Leaves (c inside c' : Context) : Prop where
  program : inside.program = c.program
  sight : inside.sight.drop 1 = c.sight
  back : c' = c

/-- What is declared in a scope of its own goes with it. -/
theorem within_stands {α : Type} {f : Option (String × Ty)} {x : Parser α}
    {P : α → Context → Prop}
    (h : standing.Holds (c.enter f) x fun a k => ∃ c', c.Leaves k c' ∧ P a c') :
    standing.Holds c (within f x) P := by
  refine Leads.within h (fun s hs => ?_) (fun s k t c' table hs ht hleaves hpop => ?_)
    (fun _ _ _ _ _ _ _ => trivial) fun _ _ _ _ _ => trivial
  · refine ⟨hs.program, rfl, SymbolTable.push_sound hs.sound, ?_⟩
    show s.table.push.sight = _
    rw [sight_push hs.sound, hs.sight]
    rfl
  · obtain rfl := hleaves.back
    refine ⟨ht.program.trans hleaves.program, hs.function,
      SymbolTable.pop?_sound ht.sound hpop, ?_⟩
    show table.sight = _
    rw [sight_pop? ht.sound hpop, ht.sight, hleaves.sight]

-- ============================================================ expressions

/-- Whether an expression makes sense where a parse stands. -/
def Fine (c : Context) (e : Expr) : Prop := e.WellFormed c.program c.sight

/-- Whether an expression is a member of an object of the given type. -/
def MemberOf (p : Program) (object : Ident) (base : Ty) (accessor : Accessor) (e : Expr) : Prop :=
  ∃ field aggregate decl, e = .member object accessor field object.pos ∧ base = .named aggregate
    ∧ p.aggregate? aggregate = some decl ∧ (decl.member? field.name).isSome = true

/-- The accessor that a token stands for. -/
def accessorOf? (token : Token) : Option Accessor :=
  match token.lexeme with
  | .symbol symbol => symbol.accessor?
  | _ => none

/-- The member behind an accessor. -/
def memberBehind (object : Ident) (base : Ty) (accessor : Accessor) : Parser Expr := do
  let (name, pos) ← wantIdent
  match base with
  | .named aggregate =>
    match (← get).program.aggregate? aggregate with
    | some decl =>
      if (decl.member? name).isSome then
        return .member object accessor ⟨name, false, pos⟩ object.pos
      else fail (.noMember name aggregate pos)
    | none => fail (.unknownType aggregate object.pos)
  | _ => fail (.notAStructure object.name object.pos)

/-- A member is the accessor that is ahead, and what stands behind it. -/
theorem member_eq (object : Ident) (base : Ty) :
    member object base = take "member access" >>= fun token =>
      match accessorOf? token with
      | none => unexpected "member access" token
      | some accessor => memberBehind object base accessor :=
  rfl

/-- Behind an accessor stands the name of a member of the object's aggregate. -/
theorem memberBehind_stands (object : Ident) (base : Ty) (accessor : Accessor) :
    standing.Holds c (memberBehind object base accessor) fun e c' =>
      c' = c ∧ MemberOf c.program object base accessor e := by
  refine standing.naming fun name pos c' hname _ => ?_
  obtain ⟨_, rfl, -⟩ := hname
  dsimp only
  split
  · refine standing.get (fun _ _ => rfl) fun s hs => ?_
    split
    · rename_i decl hdecl
      rw [hs.program] at hdecl
      refine standing.ite (fun hfield => ?_) fun _ => standing.stop_one rfl trivial
      exact standing.answer ⟨rfl, _, _, decl, rfl, rfl, hdecl, hfield⟩
    · exact standing.stop_one rfl trivial
  · exact standing.stop_one rfl trivial

/-- A scope accessor that was ahead is the accessor that is read: both times it was
the first token. -/
theorem member_ok {object : Ident} {base : Ty} {s t : ParserState} {e : Expr} (hs : At c s)
    (h : member object base s = .ok e t) :
    At c t ∧ ∃ accessor, MemberOf c.program object base accessor e
      ∧ (s.tokens[0]?.map (·.lexeme) = some (.symbol .scope) → accessor = .scope) := by
  rw [member_eq] at h
  obtain ⟨token, u, htake, h⟩ := bind_ok.1 h
  obtain ⟨rest, htokens, rfl⟩ := take_ok htake
  have hu : At c { s with tokens := rest, last := token.pos } := hs.same _ _ _
  cases haccessor : accessorOf? token with
  | none =>
      rw [haccessor] at h
      cases h
  | some accessor =>
      rw [haccessor] at h
      obtain ⟨_, ht, rfl, hmember⟩ := Leads.ok (memberBehind_stands object base accessor) hu h
      refine ⟨ht, accessor, hmember, fun hscope => ?_⟩
      rw [htokens] at hscope
      have hlexeme : token.lexeme = .symbol .scope := Option.some.inj hscope
      unfold accessorOf? at haccessor
      rw [hlexeme] at haccessor
      exact (Option.some.inj haccessor).symm

/-- A name that was read is in sight, or that of an aggregate with a member. -/
theorem identifier_ok {name : String} {pos : Position} {s t : ParserState} {e : Expr}
    (hs : At c s) (h : identifier name pos s = .ok e t) : At c t ∧ Fine c e := by
  unfold identifier at h
  obtain ⟨base, u, htype, hrest⟩ := bind_ok.1 h
  obtain ⟨rfl, hbase⟩ := typeOfName_ok htype
  rw [hs.sight] at hbase
  obtain ⟨b, w, hat, hlast⟩ := bind_ok.1 hrest
  obtain ⟨rfl, hscope⟩ := atAccessor_ok hat
  cases b with
  | true =>
      obtain ⟨ht, accessor, ⟨field, aggregate, decl, rfl, rfl, hdecl, hfield⟩, haccessor⟩ :=
        member_ok hs hlast
      refine ⟨ht, aggregate, decl, ?_, hdecl, hfield⟩
      rcases hbase with hfind | ⟨hnamed, hnext⟩
      · exact Or.inl hfind
      · cases hnamed
        exact Or.inr ⟨haccessor hnext, rfl⟩
  | false =>
      obtain ⟨rfl, rfl⟩ := pure_ok.1 hlast
      refine ⟨hs, rfl, ?_⟩
      rcases hbase with hfind | ⟨-, hnext⟩
      · exact Option.isSome_iff_exists.2 ⟨_, hfind⟩
      · exact absurd (hscope hnext) Bool.false_ne_true

/-- A name that is read makes sense where it stands. -/
theorem identifier_stands (name : String) (pos : Position) :
    standing.Holds c (identifier name pos) fun e c' => c' = c ∧ Fine c e := by
  refine Leads.mk fun s hs => ?_
  split
  · rename_i e t h
    obtain ⟨ht, he⟩ := identifier_ok hs h
    exact ⟨c, ht, rfl, he⟩
  · trivial

/-- The types that numbers are written in. -/
def Numeric (ty : Ty) : Prop := (ty.isInteger || ty.isFloating) = true

theorem kind_numeric {kind : LiteralKind} (h : kind ≠ .string) : Numeric kind.ty := by
  cases kind <;> first | rfl | exact absurd rfl h

/-- A number with a sign folded into it is a number. -/
theorem negate_numeric {lit negated : NumberLiteral} (hlit : Numeric lit.ty)
    (h : lit.negate = .ok negated) : Numeric negated.ty := by
  unfold NumberLiteral.negate at h
  obtain ⟨number, -, h⟩ := Steps.except_bind_ok.1 h
  cases number with
  | int n =>
      obtain ⟨m, -, h⟩ := Steps.except_bind_ok.1 h
      cases h
      show Numeric (NumberLiteral.intType m _)
      unfold NumberLiteral.intType
      split <;> rfl
  | real x =>
      cases h
      exact hlit

/-- The types that keywords name are known to every program. -/
theorem keyword_known {k : Keyword} {ty : Ty} (h : k.ty? = some ty) (p : Program) :
    ty.Known p := by
  cases k <;> cases h <;> trivial

/-- A type that is read is built in or declared before. -/
theorem known_of_typed {ty : Ty} (h : standing.Typed c ty c') : c' = c ∧ ty.Known c.program := by
  obtain ⟨tok, rfl, ⟨k, -, hty⟩ | ⟨name, decl, s, -, rfl, hs, hdecl⟩⟩ := h
  · exact ⟨rfl, keyword_known hty _⟩
  · rw [hs.program] at hdecl
    exact ⟨rfl, Option.isSome_iff_exists.2 ⟨decl, hdecl⟩⟩

/-- A name is read without a trace in the context. -/
theorem back_of_named {name : String} {pos : Position} (h : standing.Named c name pos c') :
    c' = c := by
  obtain ⟨_, rfl, -⟩ := h
  rfl

end MiniC.Parser
