/-
What the front end promises of a program. Every name in use is in sight at
its place, every member that is named exists, what is stored into can be
stored into, a return has a value exactly when its function does, and a
type is built in or that of an aggregate declared before. Declarations of
one scope have names of their own.

# In front and in the whole

A declaration is judged by what stands in front of it (`WellFormedAfter`), since that
is how it is read. What was in sight there is so in the whole program: no later
declaration takes the place of an aggregate (`aggregates_kept`) or of a name
(`scope_kept`), because its name would have to be new. So being well formed is monotone
in what is in sight, for types, expressions, variables and functions alike, and
`Program.WellFormed.function` says of every function that it is well formed in the
whole program.

# Names and aggregates

Names are looked up scope by scope, innermost first; those of a program are one scope,
in which functions and globals stand together (`Program.scope`). Aggregates are not
among them: a type name is looked for among the declarations.

Consumed by the proofs about the parser, which establish it, and about both back ends,
which rely on it.
-/
import Mathlib.Data.List.Induction
import MiniC.Proofs.Source.Sight

namespace MiniC

-- =========================================================== expressions

/-- Whether a type is built in or that of an aggregate of the program. -/
def Ty.Known (p : Program) : Ty → Prop
  | .named name => (p.aggregate? name).isSome = true
  | _ => True

/-- Whether an operator can stand with its operand. -/
def UnaryOp.Allows : UnaryOp → Expr → Prop
  | .incr, operand => operand.isAssignable = true
  | .decr, operand => operand.isAssignable = true
  | .minus, operand => ∀ lit, operand ≠ .number lit
  | _, _ => True

/-- Whether an expression makes sense where the given scopes are open. -/
def Expr.WellFormed (p : Program) (scopes : Sight) : Expr → Prop
  | .ident i => i.assignable = true ∧ (scopes.find? i.name).isSome = true
  | .number lit => (lit.ty.isInteger || lit.ty.isFloating) = true
  | .string _ => True
  | .binary op lhs rhs constant operandsMatch _ =>
    constant = foldable op lhs rhs ∧ operandsMatch = sameIdent lhs rhs
      ∧ (op.isAssignment = true → lhs.isAssignable = true)
      ∧ lhs.WellFormed p scopes ∧ rhs.WellFormed p scopes
  | .unary op _ operand _ => op.Allows operand ∧ operand.WellFormed p scopes
  | .member object accessor field _ =>
    ∃ aggregate decl,
      (scopes.find? object.name = some (.named aggregate)
        ∨ accessor = .scope ∧ object.name = aggregate)
        ∧ p.aggregate? aggregate = some decl ∧ (decl.member? field.name).isSome = true

/-- Whether a variable makes sense where the given scopes are open. -/
structure VariableDecl.WellFormed (p : Program) (scopes : Sight) (decl : VariableDecl) : Prop where
  ty : decl.ty.Known p
  init : ∀ e, decl.init = some e → e.WellFormed p scopes

/-- Whether a name is new to the innermost scope. -/
def Sight.Fresh (sight : Sight) (name : String) : Prop := (sight.headD []).lookup name = none

/-- Whether a leaf makes sense in a function of the given return type that
stands inside the scopes `outer`. -/
def Leaf.WellFormed (p : Program) (outer : Sight) (returnType : Ty) (sight : Sight) : Leaf → Prop
  | .condition e => e.WellFormed p (sight ++ outer)
  | .effect e => e.WellFormed p (sight ++ outer)
  | .result none => returnType = .void
  | .result (some e) => returnType ≠ .void ∧ e.WellFormed p (sight ++ outer)
  | .variable decl => sight.Fresh decl.name ∧ decl.WellFormed p (sight ++ outer)
  | .nested => False

/-- The nodes of a well-formed expression are built by `combine`. -/
theorem Expr.WellFormed.combined {p : Program} {scopes : Sight} {e : Expr}
    (h : e.WellFormed p scopes) : e.Combined := by
  induction e with
  | binary op lhs rhs constant operandsMatch pos ihl ihr =>
      obtain ⟨hconstant, hmatch, -, hleft, hright⟩ := h
      exact ⟨hconstant, hmatch, ihl hleft, ihr hright⟩
  | unary op fixity operand pos ih => exact ih h.2
  | _ => trivial

/-- The expressions of a well-formed leaf are well formed. -/
theorem Leaf.WellFormed.exprs {p : Program} {outer sight : Sight} {returnType : Ty} {leaf : Leaf}
    (h : leaf.WellFormed p outer returnType sight) :
    ∀ e ∈ leaf.exprs, e.WellFormed p (sight ++ outer) := by
  intro e he
  match leaf, h with
  | .condition _, h =>
      rw [List.mem_singleton.1 he]
      exact h
  | .effect _, h =>
      rw [List.mem_singleton.1 he]
      exact h
  | .result (some _), h =>
      rw [List.mem_singleton.1 he]
      exact h.2
  | .variable _, h => exact h.2.init e (Option.mem_toList.1 he)

-- ========================================================== declarations

/-- What a list of variables brings into a scope. -/
def scopeOf (decls : List VariableDecl) : List (String × Ty) :=
  (decls.map fun d => (d.name, d.ty)).reverse

/-- Whether a function makes sense inside the given scopes. A parameter is
in sight of those behind it; those with a default come last. -/
structure FunctionDecl.WellFormed (p : Program) (outer : Sight) (decl : FunctionDecl) : Prop where
  returnType : decl.returnType.Known p
  names : (decl.params.map (·.name)).Nodup
  params : ∀ before param after, decl.params = before ++ param :: after →
    param.WellFormed p (scopeOf before :: outer)
      ∧ (param.init = none → ∀ other ∈ before, other.init = none)
  body : decl.Everywhere (Leaf.WellFormed p outer decl.returnType)

/-- Whether an aggregate makes sense inside the given scopes. Members and
methods are in sight of those behind them. -/
structure AggregateDecl.WellFormed (p : Program) (outer : Sight) (decl : AggregateDecl) :
    Prop where
  names : (decl.members.map (·.name) ++ decl.methods.map (·.name)).Nodup
  members : ∀ member ∈ decl.members, ∃ scope, member.WellFormed p (scope :: outer)
  methods : ∀ method ∈ decl.methods, ∃ scope, method.WellFormed p (scope :: outer)

/-- What a declaration brings into the global scope. -/
def Stmt.binding? : Stmt → Option (String × Ty)
  | .function decl => some (decl.name, decl.returnType)
  | .variable decl => some (decl.name, decl.ty)
  | _ => none

/-- The global scope behind a program, the latest name first. -/
def Program.scope (p : Program) : List (String × Ty) := (p.body.filterMap Stmt.binding?).reverse

/-- Whether a declaration makes sense behind a program. A function is in
sight of itself. -/
def Stmt.WellFormedAfter (p : Program) : Stmt → Prop
  | .function decl =>
    p.scope.lookup decl.name = none
      ∧ decl.WellFormed p [(decl.name, decl.returnType) :: p.scope]
  | .variable decl => p.scope.lookup decl.name = none ∧ decl.WellFormed p [p.scope]
  | .aggregate decl => p.aggregate? decl.name = none ∧ decl.WellFormed p [p.scope]
  | _ => False

/-- Whether every declaration of a program makes sense behind those in front
of it. -/
def Program.WellFormed (p : Program) : Prop :=
  ∀ before decl after, p.body = before ++ decl :: after → decl.WellFormedAfter ⟨before⟩

theorem Program.WellFormed.nil : Program.WellFormed ⟨[]⟩ := by
  intro before decl after h
  exact absurd h.symm (List.append_ne_nil_of_right_ne_nil _ (List.cons_ne_nil _ _))

/-- A declaration that is well formed behind a program keeps it so. -/
theorem Program.WellFormed.concat {p : Program} {decl : Stmt} (h : p.WellFormed)
    (hdecl : decl.WellFormedAfter p) : Program.WellFormed ⟨p.body ++ [decl]⟩ := by
  intro before other after hbody
  rcases List.eq_nil_or_concat after with rfl | ⟨between, last, rfl⟩
  · obtain ⟨rfl, hlast⟩ := List.append_inj' hbody rfl
    cases hlast
    exact hdecl
  · rw [List.concat_eq_append, ← List.cons_append, ← List.append_assoc] at hbody
    obtain ⟨hfront, -⟩ := List.append_inj' hbody rfl
    exact h before other between hfront

/-- What stands in front of a declaration is a program of its own. -/
theorem Program.WellFormed.front {before after : List Stmt}
    (h : Program.WellFormed ⟨before ++ after⟩) : Program.WellFormed ⟨before⟩ := by
  intro front decl rest hbefore
  refine h front decl (rest ++ after) ?_
  show before ++ after = _
  rw [show before = front ++ decl :: rest from hbefore, List.append_assoc]
  rfl

-- =============================================================== growing

/-- Whether a program has the aggregates of another. -/
def Program.Extends (p q : Program) : Prop :=
  ∀ name decl, p.aggregate? name = some decl → q.aggregate? name = some decl

/-- Whether scopes have the names of others, with the same types. -/
def Sight.Extends (scopes scopes' : Sight) : Prop :=
  ∀ name ty, scopes.find? name = some ty → scopes'.find? name = some ty

/-- A name is looked up inside first. -/
theorem Sight.find?_append (sight outer : Sight) (name : String) :
    (sight ++ outer).find? name = (sight.find? name).or (outer.find? name) := by
  unfold Sight.find?
  rw [List.findSome?_append]

theorem Sight.find?_singleton (scope : List (String × Ty)) (name : String) :
    Sight.find? [scope] name = scope.lookup name := List.findSome?_singleton

theorem Sight.Extends.append {outer outer' : Sight} (h : outer.Extends outer') (sight : Sight) :
    Sight.Extends (sight ++ outer) (sight ++ outer') := by
  intro name ty hfind
  rw [Sight.find?_append] at hfind ⊢
  cases hinner : sight.find? name with
  | some found =>
      rw [hinner] at hfind
      exact hfind
  | none =>
      rw [hinner, Option.none_or] at hfind
      rw [Option.none_or]
      exact h name ty hfind

section Growing

variable {p q : Program} (hp : p.Extends q)

include hp

/-- A type that is known to a program is known to a larger one. -/
theorem Ty.Known.mono {ty : Ty} (h : ty.Known p) : ty.Known q := by
  cases ty with
  | named name =>
      obtain ⟨decl, hdecl⟩ := Option.isSome_iff_exists.1 h
      exact Option.isSome_iff_exists.2 ⟨decl, hp name decl hdecl⟩
  | _ => trivial

/-- An expression makes sense where more is in sight. -/
theorem Expr.WellFormed.mono {scopes scopes' : Sight} (hscopes : scopes.Extends scopes') {e : Expr}
    (h : e.WellFormed p scopes) : e.WellFormed q scopes' := by
  induction e with
  | ident i =>
      obtain ⟨ty, hty⟩ := Option.isSome_iff_exists.1 h.2
      exact ⟨h.1, Option.isSome_iff_exists.2 ⟨ty, hscopes _ _ hty⟩⟩
  | number lit => exact h
  | string lit => trivial
  | binary op lhs rhs constant operandsMatch pos ihl ihr =>
      obtain ⟨hconstant, hmatch, hassign, hleft, hright⟩ := h
      exact ⟨hconstant, hmatch, hassign, ihl hleft, ihr hright⟩
  | unary op fixity operand pos ih => exact ⟨h.1, ih h.2⟩
  | member object accessor field pos =>
      obtain ⟨aggregate, decl, hobject, hdecl, hfield⟩ := h
      refine ⟨aggregate, decl, ?_, hp _ _ hdecl, hfield⟩
      exact hobject.imp (hscopes _ _) id

/-- A variable makes sense where more is in sight. -/
theorem VariableDecl.WellFormed.mono {scopes scopes' : Sight} (hscopes : scopes.Extends scopes')
    {decl : VariableDecl} (h : decl.WellFormed p scopes) : decl.WellFormed q scopes' :=
  ⟨h.ty.mono hp, fun e he => (h.init e he).mono hp hscopes⟩

/-- A statement makes sense where more is in sight. -/
theorem Leaf.WellFormed.mono {outer outer' sight : Sight} (houter : outer.Extends outer')
    {returnType : Ty} {leaf : Leaf} (h : leaf.WellFormed p outer returnType sight) :
    leaf.WellFormed q outer' returnType sight := by
  have hscopes := houter.append sight
  match leaf, h with
  | .condition _, h => exact Expr.WellFormed.mono hp hscopes h
  | .effect _, h => exact Expr.WellFormed.mono hp hscopes h
  | .result none, h => exact h
  | .result (some _), h => exact ⟨h.1, Expr.WellFormed.mono hp hscopes h.2⟩
  | .variable _, h => exact ⟨h.1, h.2.mono hp hscopes⟩
  | .nested, h => exact h.elim

theorem FunctionDecl.WellFormed.mono {outer outer' : Sight} (houter : outer.Extends outer')
    {decl : FunctionDecl} (h : decl.WellFormed p outer) : decl.WellFormed q outer' where
  returnType := h.returnType.mono hp
  names := h.names
  params before param after hparams := by
    obtain ⟨hparam, hdefaults⟩ := h.params before param after hparams
    exact ⟨hparam.mono hp (houter.append [scopeOf before]), hdefaults⟩
  body := Stmt.EverywhereIn.and (fun _ _ hleaf _ => Leaf.WellFormed.mono hp houter hleaf)
    h.body h.body

end Growing

/-- A declaration behind a program takes no aggregate's place. -/
theorem Stmt.WellFormedAfter.aggregates_kept {p : Program} {decl : Stmt}
    (h : decl.WellFormedAfter p) : p.Extends ⟨p.body ++ [decl]⟩ := by
  intro name found hfound
  have haggregates : Program.aggregates ⟨p.body ++ [decl]⟩
      = p.aggregates ++ Program.aggregates ⟨[decl]⟩ := List.filterMap_append
  have hnew : ∀ a ∈ Program.aggregates ⟨[decl]⟩, a.name ≠ name := by
    intro a ha heq
    cases decl with
    | aggregate d =>
        obtain rfl : a = d := List.mem_singleton.1 ha
        rw [← heq, h.1] at hfound
        cases hfound
    | _ => cases ha
  have hnone : ∀ kind : AggregateKind, (Program.aggregates ⟨[decl]⟩).find?
      (fun a => a.kind == kind && a.name == name) = none := by
    intro kind
    rw [List.find?_eq_none]
    intro a ha
    rw [beq_false_of_ne (hnew a ha), Bool.and_false]
    exact Bool.false_ne_true
  unfold Program.aggregate? at hfound ⊢
  rw [haggregates]
  simp only [List.find?_append, hnone, Option.or_none]
  exact hfound

/-- A declaration joins the names of a program. -/
theorem Program.scope_concat (body : List Stmt) (decl : Stmt) :
    Program.scope ⟨body ++ [decl]⟩ = decl.binding?.toList ++ Program.scope ⟨body⟩ := by
  unfold Program.scope
  show (List.filterMap Stmt.binding? (body ++ [decl])).reverse = _
  rw [List.filterMap_append, List.reverse_append]
  cases hbinding : decl.binding? <;> simp [hbinding]

/-- What a declaration brings into the global scope is new there. -/
theorem Stmt.WellFormedAfter.fresh {p : Program} {decl : Stmt} (h : decl.WellFormedAfter p)
    {b : String × Ty} (hb : decl.binding? = some b) : p.scope.lookup b.1 = none := by
  match decl, h, hb with
  | .function _, h, rfl => exact h.1
  | .variable _, h, rfl => exact h.1

theorem Stmt.WellFormedAfter.scope_kept {p : Program} {decl : Stmt}
    (h : decl.WellFormedAfter p) :
    Sight.Extends [p.scope] [Program.scope ⟨p.body ++ [decl]⟩] := by
  intro name ty hfind
  unfold Sight.find? at hfind ⊢
  rw [List.findSome?_cons] at hfind ⊢
  rw [Program.scope_concat]
  cases hbinding : decl.binding? with
  | none => exact hfind
  | some b =>
      have hne : (name == b.1) = false := by
        refine beq_false_of_ne fun heq => ?_
        rw [heq, h.fresh hbinding] at hfind
        cases hfind
      have hskip : List.lookup name ((some b).toList ++ p.scope) = p.scope.lookup name := by
        show List.lookup name (b :: p.scope) = _
        rw [List.lookup_cons, hne]
      rw [show Program.scope ⟨p.body⟩ = p.scope from rfl, hskip]
      exact hfind

/-- A global is a declaration of the program. -/
theorem Program.mem_globals {p : Program} {d : VariableDecl} (h : d ∈ p.globals) :
    .variable d ∈ p.body := by
  obtain ⟨st, hst, heq⟩ := List.mem_filterMap.1 h
  cases st <;> cases heq
  exact hst

/-- An aggregate that is found is a declaration of the program. -/
theorem Program.mem_aggregates {p : Program} {name : String} {decl : AggregateDecl}
    (h : p.aggregate? name = some decl) : decl ∈ p.aggregates ∧ decl.name = name := by
  have hfound : ∀ kind : AggregateKind,
      p.aggregates.find? (fun a => a.kind == kind && a.name == name) = some decl →
        decl ∈ p.aggregates ∧ decl.name = name := by
    intro kind hfind
    have hboth := List.find?_some hfind
    rw [Bool.and_eq_true] at hboth
    exact ⟨List.mem_of_find?_eq_some hfind, eq_of_beq hboth.2⟩
  unfold Program.aggregate? at h
  dsimp only at h
  cases hstruct : p.aggregates.find? fun a => a.kind == .struct && a.name == name with
  | some found =>
      rw [hstruct] at h
      exact hfound _ (hstruct.trans h)
  | none =>
      rw [hstruct] at h
      exact hfound _ h

theorem Program.aggregate?_isSome {p : Program} {decl : AggregateDecl} (h : decl ∈ p.aggregates) :
    (p.aggregate? decl.name).isSome = true := by
  have hfind : (p.aggregates.find?
      fun a => a.kind == decl.kind && a.name == decl.name).isSome = true := by
    rw [List.find?_isSome]
    exact ⟨decl, h, by simp⟩
  unfold Program.aggregate?
  dsimp only
  rw [← Option.or_eq_orElse, Option.isSome_or, Bool.or_eq_true]
  cases hkind : decl.kind with
  | struct =>
      rw [hkind] at hfind
      exact Or.inl hfind
  | cls =>
      rw [hkind] at hfind
      exact Or.inr hfind

namespace Program.WellFormed

variable {before after : List Stmt}

/-- A relation that every declaration keeps holds across any stretch of
declarations. -/
theorem across {R : Program → Program → Prop} (hrefl : ∀ p, R p p)
    (htrans : ∀ {p q r}, R p q → R q r → R p r)
    (hdecl : ∀ {before : List Stmt} {decl : Stmt}, decl.WellFormedAfter ⟨before⟩ →
      R ⟨before⟩ ⟨before ++ [decl]⟩)
    (h : Program.WellFormed ⟨before ++ after⟩) : R ⟨before⟩ ⟨before ++ after⟩ := by
  induction after generalizing before with
  | nil =>
      rw [List.append_nil]
      exact hrefl _
  | cons decl after ih =>
      have hfirst := hdecl (h before decl after rfl)
      have hall : before ++ decl :: after = before ++ [decl] ++ after := by
        rw [List.append_assoc]
        rfl
      rw [hall] at h ⊢
      exact htrans hfirst (ih h)

theorem aggregates_kept (h : Program.WellFormed ⟨before ++ after⟩) :
    Program.Extends ⟨before⟩ ⟨before ++ after⟩ :=
  across (fun _ _ _ h => h) (fun h h' name decl hfound => h' name decl (h name decl hfound))
    (fun hdecl => hdecl.aggregates_kept) h

theorem scope_kept (h : Program.WellFormed ⟨before ++ after⟩) :
    Sight.Extends [Program.scope ⟨before⟩] [Program.scope ⟨before ++ after⟩] :=
  across (R := fun p q => Sight.Extends [p.scope] [q.scope]) (fun _ _ _ h => h)
    (fun h h' name ty hfound => h' name ty (h name ty hfound)) (fun hdecl => hdecl.scope_kept) h

/-- Names of the global scope are all different. -/
theorem scope_nodup {p : Program} (h : p.WellFormed) : (p.scope.map (·.1)).Nodup := by
  obtain ⟨body⟩ := p
  induction body using List.reverseRecOn with
  | nil => exact List.nodup_nil
  | append_singleton front decl ih =>
      rw [Program.scope_concat]
      have hdecl : decl.WellFormedAfter ⟨front⟩ := h front decl [] rfl
      cases hbinding : decl.binding? with
      | none => exact ih h.front
      | some b =>
          show (b.1 :: (Program.scope ⟨front⟩).map (·.1)).Nodup
          refine List.nodup_cons.2 ⟨fun hmem => ?_, ih h.front⟩
          obtain ⟨⟨name, ty⟩, hmem, rfl⟩ := List.mem_map.1 hmem
          have hfresh := hdecl.fresh hbinding
          rw [lookup_of_mem (ih h.front) hmem] at hfresh
          cases hfresh

/-- A declaration makes sense behind what stands in front of it. -/
theorem declaration {p : Program} (h : p.WellFormed) {st : Stmt} (hst : st ∈ p.body) :
    ∃ before after, p = ⟨before ++ st :: after⟩ ∧ st.WellFormedAfter ⟨before⟩ := by
  obtain ⟨before, after, hbody⟩ := List.append_of_mem hst
  exact ⟨before, after, congrArg Program.mk hbody, h before st after hbody⟩

/-- A function makes sense with the whole program in sight. -/
theorem function {p : Program} (h : p.WellFormed) {decl : FunctionDecl}
    (hdecl : decl ∈ p.functions) : decl.WellFormed p [p.scope] := by
  obtain ⟨st, hst, heq⟩ := List.mem_filterMap.1 hdecl
  cases st with
  | function d =>
      cases heq
      obtain ⟨before, after, rfl, hafter⟩ := h.declaration hst
      have hall : before ++ .function decl :: after = before ++ [.function decl] ++ after := by
        rw [List.append_assoc]
        rfl
      have haggregates := aggregates_kept h
      rw [hall] at h
      have hscope := scope_kept h
      rw [Program.scope_concat] at hscope
      rw [← hall] at hscope
      exact hafter.2.mono haggregates hscope
  | _ => cases heq

/-- A global variable makes sense with the whole program in sight. -/
theorem global {p : Program} (h : p.WellFormed) {decl : VariableDecl}
    (hdecl : decl ∈ p.globals) : decl.WellFormed p [p.scope] := by
  obtain ⟨before, after, rfl, hafter⟩ := h.declaration (mem_globals hdecl)
  exact hafter.2.mono (aggregates_kept h) (scope_kept h)

end Program.WellFormed

/-- A name of the global scope is that of a function or of a variable. -/
theorem Program.mem_scope {p : Program} {name : String} {ty : Ty} (h : (name, ty) ∈ p.scope) :
    (∃ f ∈ p.functions, f.name = name) ∨ ∃ d ∈ p.globals, d.name = name ∧ d.ty = ty := by
  obtain ⟨st, hst, heq⟩ := List.mem_filterMap.1 (List.mem_reverse.1 h)
  cases st <;> cases heq
  · rename_i d
    exact Or.inr ⟨d, List.mem_filterMap.2 ⟨_, hst, rfl⟩, rfl, rfl⟩
  · rename_i f
    exact Or.inl ⟨f, List.mem_filterMap.2 ⟨_, hst, rfl⟩, rfl⟩

theorem Program.scope_of_global {p : Program} {d : VariableDecl} (h : d ∈ p.globals) :
    (d.name, d.ty) ∈ p.scope :=
  List.mem_reverse.2 (List.mem_filterMap.2 ⟨_, Program.mem_globals h, rfl⟩)

end MiniC
