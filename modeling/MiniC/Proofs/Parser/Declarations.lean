/-
Accepted programs are well formed, declaration by declaration: the program grows
by one declaration at a time, each of which makes sense behind those before it
(`frontend_wellFormed`).

# What a construct does to its context

A statement is judged by the function it stands in. The context of a parse has all
scopes in one list, while a statement makes sense between the names of its own
function and those outside of it; `Context.Inside` says where the one list is
divided. Given that, a statement declares what it should and makes sense
(`Takes`), a list of statements does so one behind the other (`TakesAll`), and a
block in a scope of its own leaves nothing behind (`Nests`).

Parameters come into sight one after the other and stay so for the body
(`Lists`), so each of them makes sense behind those before it and has no name of
theirs (`ParamsFine`). Members and methods of an aggregate are in sight of those
behind them and go with the aggregate (`Gathers`). A function is in sight of its
own body.

# The program

Between two declarations a context has one scope, that of the program read so far
(`Between`). Each declaration joins it with its name, unless it is an aggregate,
whose name is looked for among the declarations and not among the names; and
being well formed behind the program so far, it keeps the program so. These are
the two halves of `Grows`. Consumed by the proofs about both back ends.
-/
import MiniC.Pipeline
import MiniC.Proofs.Parser.Grammar

namespace MiniC.Parser

variable {c c' : Context}

-- ============================================================= statements

/-- Whether a parse stands in a function of the given return type, with scopes of its
own open inside others. -/
structure Context.Inside (c : Context) (returnType : Ty) (sight outer : Sight) : Prop where
  function : ∃ name, c.function = some (name, returnType)
  nonempty : sight ≠ []
  split : c.sight = sight ++ outer

/-- A declaration joins the innermost scope, whatever is around. -/
theorem declare_append {sight : Sight} (h : sight ≠ []) (outer : Sight) (st : Stmt) :
    st.declare (sight ++ outer) = st.declare sight ++ outer := by
  obtain ⟨scope, rest, rfl⟩ := List.exists_cons_of_ne_nil h
  cases st <;> rfl

/-- A declaration closes no scope. -/
theorem declare_ne_nil {sight : Sight} (h : sight ≠ []) (st : Stmt) : st.declare sight ≠ [] := by
  obtain ⟨scope, rest, rfl⟩ := List.exists_cons_of_ne_nil h
  obtain ⟨scope', hscope⟩ := declare_cons scope rest st
  rw [hscope]
  exact List.cons_ne_nil _ _

/-- What makes sense where a parse stands does so inside the function. -/
theorem Context.Inside.fine {returnType : Ty} {sight outer : Sight}
    (h : c.Inside returnType sight outer) {e : Expr} (he : Fine c e) :
    e.WellFormed c.program (sight ++ outer) :=
  h.split ▸ he

/-- What is behind a statement is in the function too. -/
theorem Context.Inside.behind {returnType : Ty} {sight outer : Sight}
    (h : c.Inside returnType sight outer) (st : Stmt) :
    { c with sight := st.declare c.sight }.Inside returnType (st.declare sight) outer where
  function := h.function
  nonempty := declare_ne_nil h.nonempty st
  split := by
    show st.declare c.sight = _
    rw [h.split, declare_append h.nonempty]

/-- A scope that is entered inside a function is still inside it. -/
theorem Context.Inside.entered {returnType : Ty} {sight outer : Sight}
    (h : c.Inside returnType sight outer) {s : ParserState} (hs : At c s) :
    (c.enter s.function).Inside returnType ([] :: sight) outer where
  function := by
    obtain ⟨name, hname⟩ := h.function
    exact ⟨name, hs.function.trans hname⟩
  nonempty := List.cons_ne_nil _ _
  split := congrArg ([] :: ·) h.split

/-- Whether a statement brings its name into sight and makes sense in the function. -/
structure Context.Takes (c : Context) (st : Stmt) (c' : Context) : Prop where
  behind : c' = { c with sight := st.declare c.sight }
  sense : ∀ returnType sight outer, c.Inside returnType sight outer →
    st.Everywhere (Leaf.WellFormed c.program outer returnType) sight

/-- Whether the statements of a block do. -/
structure Context.TakesAll (c : Context) (body : List Stmt) (c' : Context) : Prop where
  behind : c' = { c with sight := declareAll c.sight body }
  sense : ∀ returnType sight outer, c.Inside returnType sight outer →
    Stmt.EverywhereIn (Leaf.WellFormed c.program outer returnType) sight body

/-- Whether statements make sense in a scope of their own. -/
def Context.Nests (c : Context) (body : List Stmt) (c' : Context) : Prop :=
  c' = c ∧ ∀ returnType sight outer, c.Inside returnType sight outer →
    Stmt.EverywhereIn (Leaf.WellFormed c.program outer returnType) ([] :: sight) body

/-- Whether an arm of an if chain makes sense in the function. -/
def Context.Forks (c : Context) (a : Arm) (c' : Context) : Prop :=
  c' = c ∧ ∀ returnType sight outer, c.Inside returnType sight outer →
    a.Everywhere (Leaf.WellFormed c.program outer returnType) sight

-- ============================================================= parameters

/-- Whether parameters have names of their own and make sense one behind the
other. -/
structure ParamsFine (p : Program) (outer : Sight) (params : List VariableDecl) : Prop where
  names : (params.map (·.name)).Nodup
  each : ∀ before param after, params = before ++ param :: after →
    param.WellFormed p (scopeOf before :: outer)
      ∧ (param.init = none → ∀ other ∈ before, other.init = none)

theorem scopeOf_concat (params : List VariableDecl) (param : VariableDecl) :
    scopeOf (params ++ [param]) = (param.name, param.ty) :: scopeOf params := by
  unfold scopeOf
  rw [List.map_append, List.reverse_append]
  rfl

/-- A name that is not in the scope of some parameters is the name of none. -/
theorem not_mem_of_fresh {params : List VariableDecl} {name : String}
    (h : (scopeOf params).lookup name = none) : name ∉ params.map (·.name) := by
  intro hmem
  obtain ⟨param, hparam, rfl⟩ := List.mem_map.1 hmem
  have hall := List.lookup_eq_none_iff.1 h (param.name, param.ty)
    (List.mem_reverse.2 (List.mem_map.2 ⟨param, hparam, rfl⟩))
  simp at hall

/-- One more parameter, with a name of its own and a default value if one before has
one. -/
theorem ParamsFine.concat {p : Program} {outer : Sight} {params : List VariableDecl}
    {param : VariableDecl} (h : ParamsFine p outer params)
    (hfresh : (scopeOf params).lookup param.name = none)
    (hparam : param.WellFormed p (scopeOf params :: outer))
    (hdefault : param.init = none → ∀ other ∈ params, other.init = none) :
    ParamsFine p outer (params ++ [param]) := by
  refine ⟨?_, ?_⟩
  · rw [List.map_append, List.map_singleton, List.nodup_append]
    refine ⟨h.names, List.pairwise_singleton _ _, ?_⟩
    rintro name hname _ hlast rfl
    rw [List.mem_singleton.1 hlast] at hname
    exact not_mem_of_fresh hfresh hname
  · intro before other after heq
    rcases List.eq_nil_or_concat after with rfl | ⟨between, last, rfl⟩
    · obtain ⟨rfl, hlast⟩ := List.append_inj' heq rfl
      cases hlast
      exact ⟨hparam, hdefault⟩
    · rw [List.concat_eq_append, ← List.cons_append, ← List.append_assoc] at heq
      obtain ⟨hfront, -⟩ := List.append_inj' heq rfl
      exact h.each before other between hfront

-- ============================================================= aggregates

/-- Whether the members and methods read so far make sense, with all their
names in the aggregate's scope. -/
structure Gathered (p : Program) (outer : Sight) (scope : List (String × Ty))
    (decl : AggregateDecl) : Prop where
  wellFormed : decl.WellFormed p outer
  bound : ∀ name ∈ decl.members.map (·.name) ++ decl.methods.map (·.name),
    (scope.lookup name).isSome = true

/-- A name that joins others in a scope. -/
theorem names_join {scope : List (String × Ty)} {names names' : List String} {name : String}
    (ty : Ty) (hperm : names'.Perm (name :: names)) (hnodup : names.Nodup)
    (hbound : ∀ n ∈ names, (scope.lookup n).isSome = true) (hfresh : scope.lookup name = none) :
    names'.Nodup ∧ ∀ n ∈ names', (List.lookup n ((name, ty) :: scope)).isSome = true := by
  refine ⟨hperm.nodup_iff.2 (List.nodup_cons.2 ⟨fun hmem => ?_, hnodup⟩), ?_⟩
  · have hfound := hbound name hmem
    rw [hfresh] at hfound
    cases hfound
  · intro n hn
    rw [List.lookup_cons]
    split
    · rfl
    · rename_i hne
      rcases List.mem_cons.1 (hperm.mem_iff.1 hn) with rfl | hold
      · simp at hne
      · exact hbound n hold

section Gathering

variable {p : Program} {outer : Sight} {scope : List (String × Ty)} {decl : AggregateDecl}

/-- One more member, whose name joins those of the aggregate. -/
theorem Gathered.addMember (h : Gathered p outer scope decl) {member : VariableDecl}
    (hfresh : scope.lookup member.name = none)
    (hmember : member.WellFormed p (scope :: outer)) :
    Gathered p outer ((member.name, member.ty) :: scope)
      { decl with members := decl.members ++ [member] } := by
  have hperm : ((decl.members ++ [member]).map (·.name) ++ decl.methods.map (·.name)).Perm
      (member.name :: (decl.members.map (·.name) ++ decl.methods.map (·.name))) := by
    rw [List.map_append, List.append_assoc]
    exact List.perm_middle
  obtain ⟨hnodup, hbound⟩ := names_join member.ty hperm h.wellFormed.names h.bound hfresh
  refine ⟨⟨hnodup, ?_, h.wellFormed.methods⟩, hbound⟩
  exact List.forall_mem_append.2
    ⟨h.wellFormed.members, List.forall_mem_singleton.2 ⟨scope, hmember⟩⟩

/-- One more method, which is in sight of its own body. -/
theorem Gathered.addMethod (h : Gathered p outer scope decl) {method : FunctionDecl}
    (hfresh : scope.lookup method.name = none)
    (hmethod : method.WellFormed p (((method.name, method.returnType) :: scope) :: outer)) :
    Gathered p outer ((method.name, method.returnType) :: scope)
      { decl with methods := decl.methods ++ [method] } := by
  have hperm : (decl.members.map (·.name) ++ (decl.methods ++ [method]).map (·.name)).Perm
      (method.name :: (decl.members.map (·.name) ++ decl.methods.map (·.name))) := by
    rw [List.map_append, ← List.append_assoc]
    exact List.perm_append_singleton _ _
  obtain ⟨hnodup, hbound⟩ := names_join method.returnType hperm h.wellFormed.names h.bound
    hfresh
  refine ⟨⟨hnodup, h.wellFormed.members, ?_⟩, hbound⟩
  exact List.forall_mem_append.2
    ⟨h.wellFormed.methods, List.forall_mem_singleton.2 ⟨_, hmethod⟩⟩

end Gathering

-- ============================================================ the account

/-- Whether a variable makes sense and brings its name into sight. -/
structure Context.Declares (c : Context) (decl : VariableDecl) (c' : Context) : Prop where
  binds : c.Binds decl.name decl.ty c'
  wellFormed : decl.WellFormed c.program c.sight

/-- Whether a function makes sense, its own name in sight. -/
structure Context.Defines (c : Context) (decl : FunctionDecl) (c' : Context) : Prop where
  binds : c.Binds decl.name decl.returnType c'
  wellFormed : decl.WellFormed c.program c'.sight

/-- Whether parameters are all the names of the innermost scope. -/
def Context.Lists (c : Context) (params : List VariableDecl) (c' : Context) : Prop :=
  ∀ outer, c.sight = [] :: outer →
    c' = { c with sight := scopeOf params :: outer } ∧ ParamsFine c.program outer params

/-- Whether the names of members and methods are in the innermost scope. -/
def Context.Gathers (c : Context) (decl : AggregateDecl) (c' : Context) : Prop :=
  ∀ outer, c.sight = [] :: outer → ∃ scope,
    c' = { c with sight := scope :: outer } ∧ Gathered c.program outer scope decl

/-- Whether a declaration makes sense behind the program. -/
structure Context.Grows (c : Context) (st : Stmt) (c' : Context) : Prop where
  program : c'.program = c.program
  global : c.sight = [c.program.scope] →
    c'.sight = [Program.scope ⟨c.program.body ++ [st]⟩] ∧ st.WellFormedAfter c.program

/-- Whether a parse stands between two declarations of a program. -/
structure Context.Between (c : Context) : Prop where
  program : c.program.WellFormed
  sight : c.sight = [c.program.scope]

/-- What is read makes sense with the names that are in sight of it. -/
def sense : Account where
  toJudgement := standing
  stall _ := Leads.stop fun _ _ => trivial
  binds := Context.Binds
  declare _ := declare_stands _ _ _
  enter := Context.enter
  Leaves := Context.Leaves
  within := within_stands
  expr c e c' := c' = c ∧ Fine c e
  string htok _ := ⟨htok, trivial⟩
  number htok _ hkind := ⟨htok, kind_numeric hkind⟩
  name htok _ := by
    obtain rfl := htok
    exact identifier_stands _ _
  enclosed := by
    rintro _ _ _ _ _ _ _ rfl ⟨rfl, he⟩ rfl
    exact ⟨rfl, he⟩
  negated := by
    rintro _ _ _ _ _ _ rfl ⟨rfl, he⟩ hnegated
    have hnumeric := negate_numeric he hnegated
    exact ⟨rfl, hnumeric⟩
  prefixed := by
    rintro _ _ _ _ _ _ rfl ⟨rfl, he⟩ hop
    exact ⟨rfl, hop, he⟩
  suffixed := by
    rintro _ _ _ _ _ _ ⟨rfl, he⟩ rfl hop
    exact ⟨rfl, hop, he⟩
  combined := by
    rintro _ _ _ _ _ _ _ _ ⟨rfl, hl⟩ rfl ⟨rfl, hr⟩ hop
    exact ⟨rfl, rfl, rfl, hop, hl, hr⟩
  init c _ init c' := c' = c ∧ ∀ e, init = some e → Fine c e
  bare := ⟨rfl, nofun⟩
  initial := by
    rintro _ _ _ e c _ rfl ⟨rfl, he⟩
    have hfine (e' : Expr) (he' : some e = some e') : Fine c e' := Option.some.inj he' ▸ he
    exact standing.checkNarrowing_holds trivial (fun _ _ => ⟨rfl, hfine⟩)
      fun _ _ _ _ => Leads.modify fun s hs =>
        ⟨_, hs.same _ _ _, rfl, hfine⟩
  decl := Context.Declares
  variableDecl := by
    rintro _ _ _ _ _ _ _ _ _ _ _ _ hty hname ⟨rfl, hinit⟩ rfl hbinds
    obtain ⟨rfl, hty⟩ := known_of_typed hty
    obtain rfl := back_of_named hname
    exact ⟨hbinds, hty, hinit⟩
  cond c e c' := c' = c ∧ Fine c e
  condition := by
    rintro _ _ _ e _ _ _ rfl ⟨rfl, he⟩ rfl
    exact standing.noteCondition_holds trivial (fun _ _ => ⟨rfl, he⟩)
      fun _ _ _ _ _ => Leads.modify fun s hs =>
        ⟨_, hs.same _ _ _, rfl, he⟩
  stmt := Context.Takes
  block := Context.TakesAll
  inner := Context.Nests
  arm := Context.Forks
  introduces h := by
    refine ⟨h.binds.behind, fun returnType sight outer hin => ⟨?_, ?_⟩⟩
    · have hfresh := h.binds.fresh
      obtain ⟨scope, rest, rfl⟩ := List.exists_cons_of_ne_nil hin.nonempty
      rw [hin.split] at hfresh
      exact hfresh
    · rw [← hin.split]
      exact h.wellFormed
  returnsNone := by
    rintro c _ _ _ _ s rfl rfl hs h
    refine ⟨rfl, fun returnType sight outer hin => ?_⟩
    obtain ⟨name, hfunction⟩ := hin.function
    exact h name returnType (hs.function.trans hfunction)
  returnsSome := by
    rintro c _ _ e _ _ _ s rfl ⟨rfl, he⟩ rfl hs h
    refine ⟨rfl, fun returnType sight outer hin => ?_⟩
    obtain ⟨name, hfunction⟩ := hin.function
    exact ⟨h name returnType (hs.function.trans hfunction), hin.fine he⟩
  effect := by
    rintro _ e _ _ _ ⟨rfl, he⟩ rfl
    exact ⟨rfl, fun returnType sight outer hin => hin.fine he⟩
  nested := by
    rintro _ _ _ _ _ rfl ⟨rfl, hbody⟩
    exact ⟨rfl, hbody⟩
  branch := by
    rintro _ _ _ _ _ rfl ⟨rfl, ha⟩
    exact ⟨rfl, ha⟩
  loop := by
    rintro _ _ _ e _ body _ rfl ⟨rfl, he⟩ ⟨rfl, hbody⟩
    exact ⟨rfl, fun returnType sight outer hin => ⟨hin.fine he, hbody _ _ _ hin⟩⟩
  nil := ⟨rfl, fun _ _ _ _ => trivial⟩
  cons := by
    rintro c first _ rest _ hfirst hrest
    obtain ⟨rfl, hfirst⟩ := hfirst
    refine ⟨hrest.behind, fun returnType sight outer hin => ⟨hfirst _ _ _ hin, ?_⟩⟩
    exact hrest.sense _ _ _ (hin.behind first)
  brace := by
    rintro _ _ _ _ _ rfl hbody
    exact hbody
  scope := by
    rintro c s body _ hs ⟨rfl, hbody⟩
    obtain ⟨scope, hscope⟩ := declareAll_cons [] c.sight body
    refine ⟨c, ⟨rfl, ?_, rfl⟩, rfl, fun returnType sight outer hin => ?_⟩
    · show (declareAll ([] :: c.sight) body).drop 1 = _
      rw [hscope]
      rfl
    · exact hbody _ _ _ (hin.entered hs)
  oneArmed := by
    rintro _ e _ body _ _ ⟨rfl, he⟩ ⟨rfl, hbody⟩
    exact ⟨rfl, fun returnType sight outer hin => ⟨hin.fine he, hbody _ _ _ hin, trivial⟩⟩
  twoArmed := by
    rintro _ e _ body _ _ _ other _ _ ⟨rfl, he⟩ ⟨rfl, hbody⟩ rfl ⟨rfl, hother⟩
    exact ⟨rfl, fun returnType sight outer hin =>
      ⟨hin.fine he, hbody _ _ _ hin, hother _ _ _ hin⟩⟩
  chained := by
    rintro _ e _ body _ _ _ _ _ next _ _ ⟨rfl, he⟩ ⟨rfl, hbody⟩ rfl rfl ⟨rfl, hnext⟩
    exact ⟨rfl, fun returnType sight outer hin =>
      ⟨hin.fine he, hbody _ _ _ hin, hnext _ _ _ hin⟩⟩
  params := Context.Lists
  noParams := by
    intro c outer hsight
    refine ⟨?_, List.nodup_nil, fun before param after h => ?_⟩
    · show c = { c with sight := [] :: outer }
      rw [← hsight]
      rfl
    · exact absurd h.symm (List.append_ne_nil_of_right_ne_nil _ (List.cons_ne_nil _ _))
  param := by
    rintro c ps _ ty _ name pos _ init _ _ hps hty hname ⟨rfl, hinit⟩ hdefault hbinds outer hsight
    obtain ⟨rfl, hfine⟩ := hps outer hsight
    obtain ⟨rfl, hknown⟩ := known_of_typed hty
    obtain rfl := back_of_named hname
    refine ⟨?_, hfine.concat hbinds.fresh ⟨hknown, hinit⟩ hdefault⟩
    rw [hbinds.behind, scopeOf_concat]
    rfl
  params_pass := by
    rintro _ _ _ _ _ h rfl
    exact h
  func := Context.Defines
  function := by
    rintro c ty _ name pos _ c' _ _ ps _ _ _ body _ _ hty hname hbinds rfl hps rfl hbody
    obtain ⟨rfl, hty⟩ := known_of_typed hty
    obtain rfl := back_of_named hname
    obtain ⟨rfl, hfine⟩ := hps _ rfl
    obtain ⟨rfl, hbody⟩ := hbody
    obtain ⟨scope, hscope⟩ := declareAll_cons (scopeOf ps) c'.sight body
    refine ⟨c', ⟨rfl, ?_, rfl⟩, hbinds, ?_⟩
    · show (declareAll (scopeOf ps :: c'.sight) body).drop 1 = _
      rw [hscope]
      rfl
    · obtain rfl := hbinds.behind
      refine ⟨hty, hfine.names, hfine.each, hbody ty [scopeOf ps] _ ⟨⟨name, rfl⟩, ?_, rfl⟩⟩
      exact List.cons_ne_nil _ _
  members := Context.Gathers
  noMembers := by
    intro c kind name pos outer hsight
    refine ⟨[], ?_, ⟨List.nodup_nil, nofun, nofun⟩, nofun⟩
    rw [← hsight]
    rfl
  member := by
    rintro c decl' _ v _ hdecl hv outer hsight
    obtain ⟨scope, rfl, hgathered⟩ := hdecl outer hsight
    exact ⟨_, hv.binds.behind, hgathered.addMember hv.binds.fresh hv.wellFormed⟩
  method := by
    rintro c decl' _ f _ hdecl hf outer hsight
    obtain ⟨scope, rfl, hgathered⟩ := hdecl outer hsight
    obtain ⟨hbinds, hwf⟩ := hf
    obtain rfl := hbinds.behind
    exact ⟨_, rfl, hgathered.addMethod hbinds.fresh hwf⟩
  members_pass := by
    rintro _ _ _ _ _ h rfl
    exact h
  item := Context.Grows
  globalVariable := by
    rintro c v _ ⟨hbinds, hv⟩
    obtain rfl := hbinds.behind
    refine ⟨rfl, fun hsight => ⟨?_, ?_, ?_⟩⟩
    · show c.sight.bind _ _ = _
      rw [hsight, Program.scope_concat]
      rfl
    · have hfresh := hbinds.fresh
      rw [hsight] at hfresh
      exact hfresh
    · rw [← hsight]
      exact hv
  globalFunction := by
    rintro c f _ ⟨hbinds, hf⟩
    obtain rfl := hbinds.behind
    refine ⟨rfl, fun hsight => ⟨?_, ?_, ?_⟩⟩
    · show c.sight.bind _ _ = _
      rw [hsight, Program.scope_concat]
      rfl
    · have hfresh := hbinds.fresh
      rw [hsight] at hfresh
      exact hfresh
    · rw [hsight] at hf
      exact hf
  aggregate := by
    rintro c _ _ decl' _ s _ _ t _ rfl hname hs hnone rfl ht hmembers
    obtain rfl := back_of_named hname
    obtain ⟨scope, rfl, hgathered⟩ := hmembers _ rfl
    refine ⟨_, ⟨rfl, rfl, rfl⟩, rfl, fun hsight => ⟨?_, ?_, ?_⟩⟩
    · rw [hsight, Program.scope_concat]
      rfl
    · rw [← hs.program]
      exact hnone
    · rw [← hsight]
      exact hgathered.wellFormed
  item_pass := by
    rintro _ _ _ _ _ h rfl
    exact h
  whole := Context.Between
  grow := by
    intro c st c' hc hst
    obtain ⟨hsight, hafter⟩ := hst.global hc.sight
    refine Leads.modify fun s hs => ⟨⟨⟨c.program.body ++ [st]⟩, c'.function, c'.sight⟩,
      ⟨?_, hs.function, hs.sound, hs.sight⟩, ⟨hc.program.concat hafter, hsight⟩, .inl trivial⟩
    show Program.mk (s.program.body ++ [st]) = _
    rw [hs.program, hst.program]

end MiniC.Parser

namespace MiniC

/-- A program that is read is well formed. -/
theorem parse_wellFormed {tokens : List Token} {report report' : Report} {p : Program}
    (h : parse tokens report = (.ok p, report')) : p.WellFormed := by
  obtain ⟨s, hprogram, -⟩ := Parser.program_of_parse h
  have hstart : Parser.At ⟨⟨[]⟩, none, [[]]⟩ (Parser.initial tokens report) :=
    ⟨rfl, rfl, SymbolTable.empty_sound, rfl⟩
  have hread : Parser.sense.Holds ⟨⟨[]⟩, none, [[]]⟩ Parser.program _ :=
    Parser.program_holds ⟨.nil, rfl⟩
  obtain ⟨c, -, t, hc, ht, rfl⟩ := Parser.Leads.ok hread hstart hprogram
  rw [ht.program]
  exact hc.program

/-- What the front end accepts its tokens are read as, behind what is said of
them. -/
theorem parse_of_frontend {source : String} {report report' : Report} {p : Program}
    (h : frontend source report = (.ok p, report')) :
    parse (tokenize source).1 (report.append (tokenize source).2) = (.ok p, report') := by
  unfold frontend at h
  dsimp only at h
  split at h
  · cases h
  · rename_i q hparse
    split at h
    · cases h
    · cases h
      exact Prod.ext hparse rfl

/-- What the front end accepts is well formed. -/
theorem frontend_wellFormed {source : String} {report report' : Report} {p : Program}
    (h : frontend source report = (.ok p, report')) : p.WellFormed :=
  parse_wellFormed (parse_of_frontend h)

/-- A text is accepted if its program is there. -/
theorem frontend_of_toOption {source : String} {report : Report} {p : Program}
    (h : (frontend source report).1.toOption = some p) :
    ∃ report', frontend source report = (.ok p, report') :=
  ⟨_, Prod.ext (Steps.toOption_some.1 h) rfl⟩

end MiniC
