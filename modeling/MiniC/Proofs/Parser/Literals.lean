/-
The number literals of a parsed expression. Each is spelled by a word of the
source, or came about when a sign was folded into another one; no rule of the
grammar makes one up (`expression_spelled`).

# What a spelling tells

A literal of a truth value or a character is a number that its type holds, and so
is one that a sign was folded into: only an integer as the source writes it may be
too large for the type int that it gets (`NumberLiteral.Spelled.fits`). A truth
value is written zero or one, and stays so wherever literals are folded, because
what folding makes is never of that type unless it was compared
(`NumberLiteral.bool_text_of_fold`).

# The account

Tokens are words of the source, so the account of a parse carries words along
(`InWords`): those ahead, and those that the program read so far was built from.
A literal is kept as it is spelled, expressions have the literals of their parts
(`literals_parts`), and a combination of two adds none of its own
(`Expr.Spelled.combine`). A name is taken from a word as it is, so it is an
identifier (`identifier_of_named`), which the statements keep for their variables
and the functions for their parameters. Consumed by the account of constants in
generated code and by that of the words of a program.
-/
import MiniC.Proofs.Parser.Traversal
import MiniC.Proofs.Source.Types
import MiniC.Proofs.Token.Pieces

namespace MiniC

open Source

-- ============================================================== literals

/-- The literals that words of a source spell, and those that come about by
folding signs into them. -/
inductive NumberLiteral.Spelled : NumberLiteral → Prop
  | word {chars : List Char} {kind : LiteralKind} {text : String}
      {faults : List (Nat × LexicalFault)} (pos : Position) : kind ≠ .string →
      Piece.Spells chars (.literal kind text) faults → Spelled ⟨kind.ty, text, pos⟩
  | negated {lit negated : NumberLiteral} (pos : Position) : Spelled lit →
      lit.negate = .ok negated → Spelled { negated with pos }

/-- Whether all number literals of an expression are spelled. -/
def Expr.Spelled (e : Expr) : Prop := ∀ lit ∈ literals e, lit.Spelled

/-- Whether a word of some source spells a name. -/
def Identifier (name : String) : Prop :=
  ∃ chars faults, Piece.Spells chars (.ident name) faults

/-- No identifier starts with a digit. -/
theorem startsIdent_not_digit {c : Char} (h : Piece.startsIdent c = true) : c.isDigit = false := by
  rcases Bool.or_eq_true_iff.1 h with hline | hletter
  · rw [of_decide_eq_true hline]
    decide
  · have hrange := (isAlpha_iff c).1 hletter
    have hval : c.val.toNat = c.toNat := rfl
    simp only [Char.isDigit, Bool.and_eq_false_iff, decide_eq_false_iff_not,
      UInt32.le_iff_toNat_le]
    right
    show ¬ c.val.toNat ≤ 57
    omega

/-- An identifier does not start with a digit. -/
theorem Identifier.starts {name : String} (h : Identifier name) :
    ∃ c ∈ name.toList.head?, c.isDigit = false := by
  obtain ⟨chars, faults, hspells⟩ := h
  cases hspells with
  | @ident c cs hc _ _ =>
      exact ⟨c, by rw [String.toList_ofList]; rfl, startsIdent_not_digit hc⟩

/-- The code of a character is read back from its text. -/
theorem ofText?_code {code : Nat} (h : code < 128) :
    Integer.ofText? (toString code) = some (code : Int) := by
  have hlong : Integer.fitsLong (Int.ofNat code) = true := by
    unfold Integer.fitsLong
    simp only [Bool.and_eq_true, decide_eq_true_eq, Int.ofNat_eq_natCast]
    omega
  have hsame : toString (Int.ofNat code) = toString code := rfl
  rw [← hsame]
  exact ofText?_toString hlong

/-- A number that is written anew is no truth value. -/
theorem NumberLiteral.ofInt_ne_bool (n : Int) (ty : Ty) (pos : Position) :
    (ofInt n ty pos).ty ≠ .bool := by
  unfold ofInt intType
  dsimp only
  split <;> exact nofun

/-- What a sign is folded into is a number, not a truth value. -/
theorem NumberLiteral.ne_bool_of_negate {lit negated : NumberLiteral}
    (h : lit.negate = .ok negated) : negated.ty ≠ .bool := by
  unfold negate at h
  obtain ⟨number, hnumber, h⟩ := Steps.except_bind_ok.1 h
  cases number with
  | int k =>
      obtain ⟨m, -, h⟩ := Steps.except_bind_ok.1 h
      cases h
      exact ofInt_ne_bool m _ _
  | real x =>
      cases h
      -- only floating literals are read as doubles
      intro hbool
      have hbool : lit.ty = .bool := hbool
      unfold NumberLiteral.number at hnumber
      rw [hbool, if_neg (by decide)] at hnumber
      split at hnumber <;> cases hnumber

/-- What is folded to a truth value is spelled zero or one. -/
theorem NumberLiteral.bool_text_of_fold {op : BinaryOp} {a b lit : NumberLiteral} {pos : Position}
    (h : NumberLiteral.fold op a b pos = .ok lit) (hty : lit.ty = .bool) :
    lit.text = "0" ∨ lit.text = "1" := by
  have hboolean (b : Bool) (pos : Position) :
      (boolean b pos).text = "0" ∨ (boolean b pos).text = "1" := by
    cases b
    · exact Or.inl rfl
    · exact Or.inr rfl
  unfold NumberLiteral.fold at h
  simp only [Steps.except_bind_ok] at h
  obtain ⟨x, -, y, -, h⟩ := h
  split at h
  · rename_i hfloat
    split at h
    · obtain ⟨z, -, h⟩ := Steps.except_bind_ok.1 h
      cases h
      have hty : Ty.promote a.ty b.ty = .bool := hty
      rw [hty] at hfloat
      cases hfloat
    · cases h
      exact hboolean _ _
    · cases h
  · split at h
    · obtain ⟨n, -, h⟩ := Steps.except_bind_ok.1 h
      cases h
      exact absurd hty (ofInt_ne_bool n _ _)
    · cases h
      exact hboolean _ _
    · cases h

/-- Only literals of the type int can fail to fit their type. -/
theorem NumberLiteral.Spelled.fits {lit : NumberLiteral} (h : lit.Spelled)
    (hwhole : lit.ty.isInteger = true) : lit.ty = .int ∨ Source.Fits lit := by
  cases h with
  | word pos hkind hspells =>
      cases hspells with
      | truth =>
          exact Or.inr (boolean_fits true pos)
      | falsity =>
          exact Or.inr (boolean_fits false pos)
      | integer => exact Or.inl rfl
      | double => cases hwhole
      | float => cases hwhole
      | @char body c faults _ hsize =>
          have hc : c.toNat < 128 :=
            Nat.lt_succ_of_le (UInt32.le_iff_toNat_le.1 (Char.utf8Size_eq_one_iff.1 hsize))
          exact Or.inr ⟨c.toNat, toInt_of_text rfl (ofText?_code hc), by omega, by omega⟩
      | string => exact absurd rfl hkind
  | @negated lit negated pos _ hnegate =>
      unfold NumberLiteral.negate at hnegate
      obtain ⟨number, hnumber, hnegate⟩ := Steps.except_bind_ok.1 hnegate
      cases number with
      | int k =>
          obtain ⟨m, hm, hnegate⟩ := Steps.except_bind_ok.1 hnegate
          cases hnegate
          obtain ⟨rfl, hlong⟩ := checkedInt_ok hm
          have hfits : Source.Fits (ofInt (-k) (Ty.promote lit.ty .int) lit.pos) :=
            ofInt_fits hlong _ lit.pos
          exact Or.inr hfits
      | real x =>
          cases hnegate
          -- whole-number literals are not read as doubles
          have hwhole : lit.ty.isInteger = true := hwhole
          have hfloat : lit.ty.isFloating = false := by
            cases hty : lit.ty <;> rw [hty] at hwhole <;> first | rfl | cases hwhole
          unfold NumberLiteral.number at hnumber
          rw [hfloat, if_neg Bool.false_ne_true] at hnumber
          split at hnumber <;> cases hnumber

/-- A truth value is spelled zero or one. -/
theorem NumberLiteral.Spelled.bool_text {lit : NumberLiteral} (h : lit.Spelled)
    (hty : lit.ty = .bool) : lit.text = "0" ∨ lit.text = "1" := by
  cases h with
  | word pos hkind hspells =>
      cases hspells with
      | truth => exact Or.inr rfl
      | falsity => exact Or.inl rfl
      | string => exact absurd rfl hkind
      | _ => cases hty
  | negated pos _ hnegate =>
      have hne := ne_bool_of_negate hnegate
      exact absurd hty hne

/-- A literal that was spelled is written within its type, or is of the type int. -/
theorem NumberLiteral.Spelled.writable {lit : NumberLiteral} (h : lit.Spelled)
    (hwhole : lit.ty.isInteger = true) {n : Int} (hn : lit.toInt = .ok n) :
    lit.ty = .int ∨ Writable lit.ty n := by
  refine (h.fits hwhole).imp_right ?_
  rintro ⟨k, hk, hwritable⟩
  cases hk.symm.trans hn
  exact hwritable

/-- The literals of a part are among those of the whole. -/
theorem literals_parts {e part : Expr} (h : part ∈ e.parts) : literals part ⊆ literals e := by
  induction e with
  | binary op lhs rhs constant operandsMatch pos ihl ihr =>
      rcases List.mem_cons.1 h with rfl | h
      · exact List.Subset.refl _
      rcases List.mem_append.1 h with h | h
      · exact List.Subset.trans (ihl h) (List.subset_append_left _ _)
      · exact List.Subset.trans (ihr h) (List.subset_append_right _ _)
  | unary op fixity operand pos ih =>
      rcases List.mem_cons.1 h with rfl | h
      · exact List.Subset.refl _
      · exact ih h
  | ident i =>
      cases List.mem_singleton.1 h
      exact List.Subset.refl _
  | number lit =>
      cases List.mem_singleton.1 h
      exact List.Subset.refl _
  | string lit =>
      cases List.mem_singleton.1 h
      exact List.Subset.refl _
  | member object accessor field pos =>
      cases List.mem_singleton.1 h
      exact List.Subset.refl _

-- ================================================================= words

/-- Combining two expressions makes no literal up. -/
theorem Expr.Spelled.combine {lhs rhs : Expr} (hl : lhs.Spelled) (hr : rhs.Spelled)
    (op : BinaryOp) (pos : Position) : (Expr.combine op lhs rhs pos).Spelled :=
  List.forall_mem_append.2 ⟨hl, hr⟩

/-- Whether a leaf is put together from words of a source. -/
structure Leaf.Worded (leaf : Leaf) : Prop where
  exprs : ∀ e ∈ leaf.exprs, e.Spelled
  named : ∀ decl ∈ leaf.variable?, Identifier decl.name

/-- Whether all leaves are put together from words of a source. -/
def AllWorded (leaves : List Leaf) : Prop := ∀ leaf ∈ leaves, leaf.Worded

section Leaves

variable {leaf : Leaf} {first rest : List Leaf}

/-- A statement without a variable is worded by its expressions. -/
theorem Leaf.Worded.of_exprs (h : ∀ e ∈ leaf.exprs, e.Spelled) (hnone : leaf.variable? = none) :
    leaf.Worded :=
  ⟨h, by rw [hnone]; nofun⟩

theorem AllWorded.nil : AllWorded [] := fun _ hleaf => absurd hleaf List.not_mem_nil

theorem AllWorded.cons (h : leaf.Worded) (hrest : AllWorded rest) : AllWorded (leaf :: rest) :=
  List.forall_mem_cons.2 ⟨h, hrest⟩

theorem AllWorded.one (h : leaf.Worded) : AllWorded [leaf] := .cons h .nil

/-- Statements that follow each other are worded together. -/
theorem AllWorded.append (hfirst : AllWorded first) (hrest : AllWorded rest) :
    AllWorded (first ++ rest) :=
  List.forall_mem_append.2 ⟨hfirst, hrest⟩

end Leaves

/-- Whether the leaves and the parameters of a function are put together from
words of a source. -/
structure FunctionDecl.Worded (decl : FunctionDecl) : Prop where
  leaves : AllWorded decl.leaves
  params : ∀ param ∈ decl.params, Identifier param.name

namespace Parser

/-- Whether a token is a word that characters of some source spell. -/
def Worded (token : Token) : Prop := ∃ chars faults, Piece.Spells chars token.lexeme faults

/-- Whether a declaration is put together from words of a source, if it is that
of a function. -/
def WordedBody : Stmt → Prop
  | .function decl => decl.Worded
  | _ => True

/-- Whether a parse is in front of words, with a program behind it that was given or is
put together from such. -/
structure InWords (given : List Stmt) (s : ParserState) : Prop where
  ahead : ∀ token ∈ s.tokens, Worded token
  behind : ∀ st ∈ s.program.body, st ∈ given ∨ WordedBody st

/-- Judged by the words that are taken. -/
def drawing (given : List Stmt) : Judgement where
  Index := Unit
  Sees _ := InWords given
  Holds := Leads (fun _ => InWords given) fun _ _ => True
  token _ tok _ := Worded tok
  answer := .answer
  chain := .chain
  look hx _ hf := .look hx hf
  stop _ := Leads.stop fun _ _ => trivial
  take _ _ := by
    refine .take (fun s tok rest hs htokens => ?_) fun _ _ _ => trivial
    have hwords := hs.ahead
    rw [htokens] at hwords
    obtain ⟨htok, hrest⟩ := List.forall_mem_cons.1 hwords
    exact ⟨(), ⟨hrest, hs.behind⟩, htok⟩

/-- Names are words as they are. -/
theorem identifier_of_named {given : List Stmt} {name : String} {pos : Position}
    {i j : (drawing given).Index} (h : (drawing given).Named i name pos j) : Identifier name := by
  obtain ⟨tok, ⟨chars, faults, hspells⟩, hname, -⟩ := h
  rw [hname] at hspells
  exact ⟨chars, faults, hspells⟩

/-- What is read is put together from words. -/
def wording (given : List Stmt) : Account where
  toJudgement := drawing given
  stall _ := Leads.stop fun _ _ => trivial
  declare _ := Leads.declare (fun _ _ hs _ => ⟨(), ⟨hs.ahead, hs.behind⟩, trivial⟩)
    fun _ _ _ _ => trivial
  enter _ i := i
  Leaves _ _ _ := True
  within h := Leads.within h (fun _ hs => ⟨hs.ahead, hs.behind⟩)
    (fun _ _ _ _ _ _ hs _ _ => ⟨hs.ahead, hs.behind⟩) (fun _ _ _ _ _ _ _ => trivial)
    fun _ _ _ _ _ => trivial
  expr _ e _ := e.Spelled
  string _ _ := nofun
  number htok hlexeme hkind := by
    obtain ⟨chars, faults, hspells⟩ := htok
    rw [hlexeme] at hspells
    exact List.forall_mem_singleton.2 (.word _ hkind hspells)
  name _ _ := (drawing given).identifier_holds trivial nofun fun _ _ _ _ _ _ _ _ => nofun
  enclosed _ h _ := h
  negated _ h hnegated :=
    List.forall_mem_singleton.2 (.negated _ (h _ List.mem_cons_self) hnegated)
  prefixed _ h _ := h
  suffixed h _ _ := h
  combined hl _ hr _ := hl.combine hr _ _
  init _ _ init _ := ∀ e, init = some e → e.Spelled
  bare := nofun
  initial _ h := (drawing given).checkNarrowing_holds trivial
    (fun _ _ e he => Option.some.inj he ▸ h)
    fun _ _ _ _ => Leads.modify fun s hs =>
      ⟨(), ⟨hs.ahead, hs.behind⟩, fun e he => Option.some.inj he ▸ h⟩
  decl _ v _ := (Leaf.variable v).Worded
  variableDecl _ hname hinit _ _ := by
    refine ⟨fun e he => hinit e (Option.mem_toList.1 he), ?_⟩
    rintro _ ⟨⟩
    exact identifier_of_named hname
  cond _ e _ := e.Spelled
  condition _ h _ := (drawing given).noteCondition_holds trivial (fun _ _ => h)
    fun _ _ _ _ _ => Leads.modify fun s hs => ⟨(), ⟨hs.ahead, hs.behind⟩, h⟩
  stmt _ st _ := AllWorded st.leaves
  block _ body _ := AllWorded (leavesAll body)
  inner _ body _ := AllWorded (leavesAll body)
  arm _ a _ := AllWorded a.leaves
  introduces h := .one h
  returnsNone _ _ _ _ := .one (.of_exprs nofun rfl)
  returnsSome _ h _ _ _ := .one (.of_exprs (List.forall_mem_singleton.2 h) rfl)
  effect h _ := .one (.of_exprs (List.forall_mem_singleton.2 h) rfl)
  nested _ h := h
  branch _ h := h
  loop _ he hbody := .cons (.of_exprs (List.forall_mem_singleton.2 he) rfl) hbody
  nil := .nil
  cons hfirst hrest := hfirst.append hrest
  brace _ h := h
  scope _ h := ⟨(), trivial, h⟩
  oneArmed he hbody :=
    .cons (.of_exprs (List.forall_mem_singleton.2 he) rfl) (hbody.append .nil)
  twoArmed he hbody _ hother :=
    .cons (.of_exprs (List.forall_mem_singleton.2 he) rfl) (hbody.append hother)
  chained he hbody _ _ hnext :=
    .cons (.of_exprs (List.forall_mem_singleton.2 he) rfl) (hbody.append hnext)
  params _ ps _ := ∀ p ∈ ps, Identifier p.name
  noParams := nofun
  param hps _ hname _ _ _ := List.forall_mem_append.2
    ⟨hps, List.forall_mem_singleton.2 (identifier_of_named hname)⟩
  params_pass h _ := h
  func _ f _ := f.Worded
  function _ _ _ _ hparams _ hbody := ⟨(), trivial, hbody, hparams⟩
  item _ st _ := WordedBody st
  globalFunction h := h
  aggregate _ _ _ _ _ _ _ := ⟨(), trivial, trivial⟩
  item_pass h _ := h
  grow _ h := Leads.modify fun s hs => ⟨(), ⟨hs.ahead,
    List.forall_mem_append.2 ⟨hs.behind, List.forall_mem_singleton.2 (.inr h)⟩⟩, trivial,
    .inl trivial⟩

/-- The literals of an expression that is parsed from words of a source are
spelled, and so are those of its parts. -/
theorem expression_spelled {s t : ParserState} {e : Expr}
    (htokens : ∀ token ∈ s.tokens, ∃ source, token ∈ (tokenize source).1)
    (h : expression s = .ok e t) : e.Spelled := by
  have hstart : InWords s.program.body s := by
    refine ⟨fun token htoken => ?_, fun _ hst => .inl hst⟩
    obtain ⟨source, hin⟩ := htokens token htoken
    exact token_spelled hin
  have hread : (wording s.program.body).Holds () expression _ := expression_holds
  obtain ⟨_, -, he⟩ := Leads.ok hread hstart h
  exact he

end Parser

end MiniC
