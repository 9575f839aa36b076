/-
The symbols of a generated program. A symbol is defined by the start routine,
by a line of reserved room or of data, or by a function, and stands at the
margin of the text there (`Assembly.defined_rendered`); instructions and data
refer to symbols.

# Names of two kinds

Some symbols the compiler makes up: the name of the start routine, and a label for
each string. They are different from each other, the labels because their numbers are
(`poolLabels_nodup`). The others are the names of globals and functions, which the
grammar keeps apart from each other but not from those.

# References

An instruction refers to a global through the place it addresses, and a place is known
to the environment if it names one (`Known`), as every place is that is found. Besides
that code refers to strings, by the label that the pool gave out when the string was
interned; the pool only grows, so the label is among those that are defined in the end
(`Pooled.mono`).

So whatever is referred to is defined, and nothing is defined twice exactly
when no global and no function has a name that the compiler makes up
(`symbols_unique`). `namedLikeString` is a program that has one.
-/
import MiniC.Proofs.Codegen.Sites
import MiniC.Proofs.ControlFlow.Assembly
import MiniC.Proofs.IR.Builder
import MiniC.Proofs.Parser.Declarations
import MiniC.Proofs.Source.Lawful

namespace MiniC

namespace Asm

-- =============================================================== symbols

/-- The global that an operand lies in. -/
def Operand.symbol? : Operand → Option String
  | .mem _ (.static name _) => some name
  | _ => none

/-- The symbols that an instruction refers to. -/
def Instr.symbols : Instr → List String
  | .lea _ label => [label]
  | i => i.operands.filterMap Operand.symbol?

/-- The symbols that a line of a function refers to. Its own labels are no
symbols. -/
def Line.symbols : Line Instr → List String
  | .insn i => i.symbols
  | _ => []

/-- The symbols that a datum refers to. -/
def Datum.symbols : Datum → List String
  | .address _ label => [label]
  | _ => []

/-- The label of a string in the data. -/
def Datum.stringLabel? : Datum → Option String
  | .string name _ => some name
  | _ => none

namespace Assembly

/-- The symbols that a program defines, one for each definition. -/
def defined (a : Assembly) : List String :=
  "_start" :: (a.bss.map Reservation.name ++ a.data.map Datum.name ++ a.functions.map Prod.fst)

/-- The symbols that a program refers to. The start routine calls `main`. -/
def referred (a : Assembly) : List String :=
  "main" :: (a.data.flatMap Datum.symbols
    ++ a.functions.flatMap fun f => f.2.flatMap Line.symbols)

/-- The symbols that the compiler makes up. -/
def invented (a : Assembly) : List String := "_start" :: a.data.filterMap Datum.stringLabel?

end Assembly

-- ============================================================= rendering

theorem Reservation.render_named (r : Reservation) :
    ∃ rest, r.render.toList = r.name.toList ++ ':' :: rest := by
  cases r with
  | cell name width =>
      refine ⟨' ' :: (width.reserveWord ++ " 1").toList, ?_⟩
      simp only [render, Reservation.name, String.toList_append, List.append_assoc]
      rfl
  | bytes name count =>
      refine ⟨" resb ".toList ++ (toString count).toList, ?_⟩
      simp only [render, Reservation.name, String.toList_append, List.append_assoc]
      rfl

theorem Datum.render_named (d : Datum) :
    ∃ rest, d.render.toList = d.name.toList ++ ':' :: rest := by
  cases d with
  | address name label =>
      refine ⟨" dq ".toList ++ label.toList, ?_⟩
      simp only [render, Datum.name, String.toList_append, List.append_assoc]
      rfl
  | integer name width n =>
      refine ⟨' ' :: (width.dataWord ++ " " ++ toString n).toList, ?_⟩
      simp only [render, Datum.name, String.toList_append, List.append_assoc]
      rfl
  | real name width text =>
      refine ⟨' ' :: (width.dataWord ++ " " ++ text).toList, ?_⟩
      simp only [render, Datum.name, String.toList_append, List.append_assoc]
      rfl
  | string name bytes =>
      simp only [render, Datum.name, String.toList_append, List.append_assoc]
      exact ⟨_, rfl⟩

/-- Every symbol that a program defines stands at the margin of its text. -/
theorem Assembly.defined_rendered {a : Assembly} (indent : String) {name : String}
    (h : name ∈ a.defined) :
    ∃ text ∈ a.listing.texts indent, ∃ rest, text.toList = name.toList ++ ':' :: rest := by
  unfold Listing.texts
  simp only [List.mem_append]
  rcases List.mem_cons.1 h with rfl | h
  · refine ⟨"_start:", Or.inl (Or.inl (Or.inr ?_)), [], rfl⟩
    exact List.mem_cons_of_mem _ List.mem_cons_self
  rcases List.mem_append.1 h with h | h
  · rcases List.mem_append.1 h with h | h
    · obtain ⟨r, hr, rfl⟩ := List.mem_map.1 h
      refine ⟨r.render, ?_, r.render_named⟩
      exact Or.inl (Or.inl (Or.inl (Or.inl (Or.inl (Or.inr (List.mem_map_of_mem hr))))))
    · obtain ⟨d, hd, rfl⟩ := List.mem_map.1 h
      refine ⟨d.render, ?_, d.render_named⟩
      exact Or.inl (Or.inl (Or.inl (Or.inr (List.mem_map_of_mem hd))))
  · obtain ⟨f, hf, rfl⟩ := List.mem_map.1 h
    refine ⟨f.1 ++ ":", Or.inr ?_, [], String.toList_append⟩
    refine List.mem_flatMap.2 ⟨_, List.mem_map_of_mem hf, ?_⟩
    exact List.mem_cons_of_mem _ List.mem_cons_self

end Asm

namespace Codegen

open Asm Steps Line

-- ================================================================ labels

/-- Two strings have one label only if they are one. -/
theorem label_inj {j k : Nat} (h : StringPool.label j = StringPool.label k) : j = k := by
  have hlist := congrArg String.toList h
  unfold StringPool.label at hlist
  rw [String.toList_append, String.toList_append] at hlist
  exact IR.Names.repr_inj (String.toList_inj.1 (List.append_cancel_left hlist))

theorem label_ne_start (n : Nat) : StringPool.label n ≠ "_start" := by
  intro h
  have hlist := congrArg String.toList h
  unfold StringPool.label at hlist
  rw [String.toList_append] at hlist
  -- the second characters differ
  have hsecond := congrArg (fun cs : List Char => cs[1]?) hlist
  cases hsecond

/-- The labels of a pool. -/
def poolLabels (strings : StringPool) : List String :=
  (List.range strings.values.length).map StringPool.label

theorem mem_poolLabels {strings : StringPool} {name : String} :
    name ∈ poolLabels strings ↔ Pooled strings.values.length name := by
  unfold poolLabels Pooled
  simp only [List.mem_map, List.mem_range]
  exact ⟨fun ⟨n, hn, h⟩ => ⟨n, hn, h.symm⟩, fun ⟨n, hn, h⟩ => ⟨n, hn, h.symm⟩⟩

/-- What the compiler makes up is made up once. -/
theorem poolLabels_nodup (strings : StringPool) : ("_start" :: poolLabels strings).Nodup := by
  have hinjective : Function.Injective StringPool.label := fun _ _ => label_inj
  refine List.nodup_cons.2 ⟨fun hmem => ?_, List.nodup_range.map hinjective⟩
  obtain ⟨n, -, hn⟩ := mem_poolLabels.1 hmem
  exact label_ne_start n hn.symm

/-- The strings of a pool are defined under its labels. -/
theorem data_names (strings : StringPool) : strings.data.map Datum.name = poolLabels strings := by
  unfold StringPool.data poolLabels
  rw [List.map_map, List.range_eq_range', ← List.zipIdx_map_snd 0 strings.values, List.map_map]
  rfl

theorem data_stringLabels (strings : StringPool) :
    strings.data.filterMap Datum.stringLabel? = poolLabels strings := by
  rw [← data_names]
  unfold StringPool.data
  rw [List.filterMap_map, List.map_map, ← List.filterMap_eq_map]
  rfl

theorem data_symbols (strings : StringPool) : strings.data.flatMap Datum.symbols = [] := by
  unfold StringPool.data
  rw [List.flatMap_map]
  exact List.flatMap_eq_nil_iff.2 fun _ _ => rfl

-- ================================================================ places

/-- A place on the stack or in one of the globals. -/
def Known (types : List (String × Ty)) : Place → Prop
  | .stack _ => True
  | .static name _ => name ∈ types.map (·.1)

section Known

variable {env : Env} {f : Frame} {place : Place} {ty : Ty}

/-- A place that is found for a name is on the stack or names a global. -/
theorem locate_known {name : String} (h : env.locate f name = .ok (place, ty)) :
    Known env.globals place := by
  unfold Env.locate at h
  split at h
  · cases h
    trivial
  · split at h
    · rename_i hlookup
      cases h
      exact List.mem_map_of_mem (mem_of_lookup hlookup)
    · cases h

theorem shift_known {types : List (String × Ty)} {place' : Place} {offset : Nat}
    (hknown : Known types place) (h : Env.shift place offset = .ok place') :
    Known types place' := by
  unfold Env.shift at h
  split at h
  · split at h <;> cases h
    trivial
  · cases h
    exact hknown

/-- A member lies where its object does. -/
theorem locateMember_known {object : Ident} {accessor : Accessor} {field : Ident}
    (h : env.locateMember f object accessor field = .ok (place, ty)) :
    Known env.globals place := by
  unfold Env.locateMember at h
  cases accessor with
  | arrow => cases h
  | scope => cases h
  | dot =>
      obtain ⟨⟨base, baseTy⟩, hbase, h⟩ := except_bind_ok.1 h
      dsimp only at h
      split at h
      · obtain ⟨layout, -, h⟩ := except_bind_ok.1 h
        split at h
        · obtain ⟨place', hplace', h⟩ := except_bind_ok.1 h
          cases h
          exact shift_known (locate_known hbase) hplace'
        · cases h
      · cases h

/-- Every place that is found is known. -/
theorem place?_known {e : Expr} (h : env.place? f e = .ok (some (place, ty))) :
    Known env.globals place := by
  cases e with
  | ident i =>
      obtain ⟨found, hfound, heq⟩ := except_map_ok.1 h
      cases heq
      exact locate_known hfound
  | member object accessor field pos =>
      obtain ⟨found, hfound, heq⟩ := except_map_ok.1 h
      cases heq
      exact locateMember_known hfound
  | _ => cases h

/-- What is met at sites lies on the stack or in globals. -/
theorem met_known {sites : List Site} {met : List (Width × Place)}
    (h : Heeds (meetings env sites) met) {w : Width} (ho : (w, place) ∈ met) :
    Known env.globals place := by
  obtain ⟨m, hm, hmet⟩ := exists_left h ho
  obtain ⟨site, -, rfl⟩ := List.mem_map.1 hm
  cases site with
  | ref scopes e =>
      obtain ⟨ty, hplace, -⟩ := hmet
      exact place?_known hplace
  | first v =>
      obtain ⟨rfl, -⟩ := hmet
      trivial

end Known

-- ============================================================= functions

section Functions

variable {types : List (String × Ty)} {bound : Nat}

/-- An instruction that works on the pool refers to it, or to the globals in
which its operands lie. -/
theorem works_symbols {i : Instr} (h : i.Works (Pooled bound))
    (hmet : ∀ w place, (w, place) ∈ i.met → Known types place) {name : String}
    (hname : name ∈ i.symbols) : name ∈ types.map (·.1) ∨ Pooled bound name := by
  unfold Instr.symbols at hname
  split at hname
  · cases List.mem_singleton.1 hname
    exact Or.inr h.2
  · obtain ⟨o, ho, hsymbol⟩ := List.mem_filterMap.1 hname
    unfold Operand.symbol? at hsymbol
    split at hsymbol
    · cases hsymbol
      exact Or.inl (hmet _ _ (Instr.mem_met.2 ho))
    · cases hsymbol

/-- What a function starts with refers to nothing. -/
theorem entry_symbols {reserved : Option Nat} {i : Instr} (h : i ∈ entry reserved) :
    i.symbols = [] := by
  rcases mem_entry h with rfl | rfl | ⟨n, -, rfl⟩ <;> rfl

theorem restoring_symbols (reserved : Option Nat) : (restoring reserved).symbols = [] := by
  cases reserved <;> rfl

/-- A function refers to globals and to strings of the pool. -/
theorem function_symbols {p : Program} (hp : p.WellFormed) {decl : FunctionDecl} {outer : Sight}
    (hdecl : decl.WellFormed p outer) {noRedZone : Bool} {strings strings' : StringPool}
    {ls : Lines} (h : function p types noRedZone strings decl = .ok (ls, strings')) :
    strings.values.length ≤ strings'.values.length
      ∧ ∀ line ∈ ls, ∀ name ∈ line.symbols,
        name ∈ types.map (·.1) ∨ Pooled strings'.values.length name := by
  obtain ⟨body, s, reserved, -, rfl, rfl, -, -, -, hle, hkempt⟩ :=
    function_made hp hdecl h
  refine ⟨hle, fun line hline name hname => ?_⟩
  cases line with
  | insn i =>
      have hnone (hi : i.symbols = []) : False := by
        have hname : name ∈ i.symbols := hname
        rw [hi] at hname
        cases hname
      rcases insn_mem_withFrame hline with hi | hi | rfl | rfl
      · exact (hnone (entry_symbols hi)).elim
      · rcases hkempt.works i hi with hworks | rfl | rfl
        · refine works_symbols hworks (fun w place ho => ?_) hname
          exact met_known hkempt.meets (List.mem_flatMap.2 ⟨i, mem_code.2 hi, ho⟩)
        · exact (hnone rfl).elim
        · exact (hnone rfl).elim
      · exact (hnone (restoring_symbols reserved)).elim
      · exact (hnone rfl).elim
  | _ => cases hname

/-- A label that was given out stays so while the pool grows. -/
theorem Pooled.mono {bound' : Nat} (hle : bound ≤ bound') {name : String} (h : Pooled bound name) :
    Pooled bound' name := by
  obtain ⟨n, hn, hname⟩ := h
  exact ⟨n, Nat.lt_of_lt_of_le hn hle, hname⟩

/-- Functions are assembled under their names; the reserved room and the data
stay as they are. -/
theorem functions_symbols {p : Program} (hp : p.WellFormed) {noRedZone : Bool} :
    ∀ (decls : List FunctionDecl) {asm asm' : Assembly} {strings strings' : StringPool},
      (∀ decl ∈ decls, ∃ outer, decl.WellFormed p outer) →
      functions p noRedZone decls asm strings = .ok (asm', strings') →
      asm'.bss = asm.bss ∧ asm'.data = asm.data ∧ strings.values.length ≤ strings'.values.length
        ∧ ∃ fns, asm'.functions = asm.functions ++ fns ∧ fns.map Prod.fst = decls.map (·.name)
          ∧ ∀ f ∈ fns, ∀ line ∈ f.2, ∀ name ∈ line.symbols,
            name ∈ p.globals.map (·.name) ∨ Pooled strings'.values.length name
  | [], asm, asm', strings, strings', _, h => by
      cases h
      exact ⟨rfl, rfl, Nat.le_refl _, [], (List.append_nil _).symm, rfl,
        fun _ hf => absurd hf List.not_mem_nil⟩
  | decl :: rest, asm, asm', strings, strings', hwf, h => by
      unfold functions at h
      obtain ⟨⟨body, between⟩, hbody, h⟩ := except_bind_ok.1 h
      obtain ⟨outer, hdecl⟩ := hwf decl List.mem_cons_self
      obtain ⟨hgrown, hsymbols⟩ := function_symbols hp hdecl hbody
      obtain ⟨hbss, hdata, hle, fns, hfns, hnames, hall⟩ :=
        functions_symbols hp rest (fun d hd => hwf d (List.mem_cons_of_mem _ hd)) h
      have htypes : (globalTypes p.globals).map (·.1) = (p.globals.map (·.name)).reverse := by
        unfold globalTypes
        rw [List.map_reverse, List.map_map]
        rfl
      refine ⟨hbss, hdata, Nat.le_trans hgrown hle, (decl.name, body) :: fns, ?_, ?_, ?_⟩
      · rw [hfns, List.append_assoc]
        rfl
      · rw [List.map_cons, List.map_cons, hnames]
      · intro f hf line hline name hname
        rcases List.mem_cons.1 hf with rfl | hf
        · rcases hsymbols line hline name hname with hglobal | hpool
          · rw [htypes, List.mem_reverse] at hglobal
            exact Or.inl hglobal
          · exact Or.inr (hpool.mono hle)
        · exact hall f hf line hline name hname

end Functions

-- =============================================================== globals

/-- What globals of certain names have become: a line of reserved room or of
data for each, and references to so many strings. -/
structure Laid (names : List String) (bound : Nat) (asm : Assembly) : Prop where
  names : (asm.bss.map Reservation.name ++ asm.data.map Datum.name).Perm names
  strings : asm.data.filterMap Datum.stringLabel? = []
  symbols : ∀ name ∈ asm.data.flatMap Datum.symbols, Pooled bound name

section Globals

variable {names : List String} {bound bound' : Nat} {asm asm' : Assembly}

/-- Reserved room defines its name. -/
theorem Laid.reserve (h : Laid names bound asm) (r : Reservation) :
    Laid (names ++ [r.name]) bound { asm with bss := asm.bss ++ [r] } where
  names := by
    have hmove : (asm.bss.map Reservation.name ++ [r.name] ++ asm.data.map Datum.name).Perm
        (asm.bss.map Reservation.name ++ asm.data.map Datum.name ++ [r.name]) := by
      rw [List.append_assoc, List.append_assoc]
      exact List.perm_append_comm.append_left _
    rw [List.map_append]
    exact hmove.trans (h.names.append_right _)
  strings := h.strings
  symbols := h.symbols

/-- A line of data defines its name. -/
theorem Laid.datum (h : Laid names bound asm) (hle : bound ≤ bound') (d : Datum)
    (hstring : d.stringLabel? = none) (hsymbols : ∀ name ∈ d.symbols, Pooled bound' name) :
    Laid (names ++ [d.name]) bound' { asm with data := asm.data ++ [d] } where
  names := by
    rw [List.map_append, ← List.append_assoc]
    exact h.names.append_right _
  strings := by
    rw [List.filterMap_append, h.strings, List.filterMap_cons_none hstring]
    rfl
  symbols name hname := by
    rw [List.flatMap_append, List.flatMap_singleton] at hname
    rcases List.mem_append.1 hname with hname | hname
    · exact (h.symbols name hname).mono hle
    · exact hsymbols name hname

theorem Laid.mono (h : Laid names bound asm) (hle : bound ≤ bound') : Laid names bound' asm where
  names := h.names
  strings := h.strings
  symbols name hname := (h.symbols name hname).mono hle

/-- A global becomes one line. -/
theorem global_laid {p : Program} {decl : VariableDecl} {strings strings' : StringPool}
    (h : Laid names strings.values.length asm)
    (hglobal : global p decl asm strings = .ok (asm', strings')) :
    Laid (names ++ [decl.name]) strings'.values.length asm' := by
  have hnone : ∀ name ∈ ([] : List String), Pooled strings.values.length name :=
    fun _ hname => absurd hname List.not_mem_nil
  unfold global at hglobal
  obtain ⟨⟨size, align⟩, -, hglobal⟩ := except_bind_ok.1 hglobal
  dsimp only at hglobal
  split at hglobal
  -- an aggregate, and then a type without a width of its own
  iterate 2
    split at hglobal
    · cases hglobal
    · cases hglobal
      exact h.reserve (.bytes decl.name size)
  · split at hglobal
    · cases hglobal
      exact h.reserve (.cell decl.name _)
    · split at hglobal
      · rename_i lit _ _
        cases hglobal
        have hgrown : (strings.intern lit.value).2.values.length = strings.values.length + 1 :=
          List.length_append
        rw [hgrown]
        refine h.datum (Nat.le_succ _) (.address decl.name _) rfl fun name hname => ?_
        exact ⟨strings.values.length, Nat.lt_succ_self _, List.mem_singleton.1 hname⟩
      · split at hglobal
        · obtain ⟨lit, -, hglobal⟩ := except_bind_ok.1 hglobal
          split at hglobal
          · obtain ⟨text, -, hglobal⟩ := except_bind_ok.1 hglobal
            cases hglobal
            exact h.datum (Nat.le_refl _) (.real decl.name _ text) rfl hnone
          · obtain ⟨n, -, hglobal⟩ := except_bind_ok.1 hglobal
            cases hglobal
            exact h.datum (Nat.le_refl _) (.integer decl.name _ n) rfl hnone
        · cases hglobal

/-- The globals of a program are laid out under their names. -/
theorem globals_laid {p : Program} :
    ∀ (decls : List VariableDecl) {names : List String} {asm asm' : Assembly}
      {strings strings' : StringPool}, Laid names strings.values.length asm →
      globals p decls asm strings = .ok (asm', strings') →
      Laid (names ++ decls.map (·.name)) strings'.values.length asm'
  | [], names, asm, asm', strings, strings', hlaid, h => by
      cases h
      rw [List.map_nil, List.append_nil]
      exact hlaid
  | decl :: rest, names, asm, asm', strings, strings', hlaid, h => by
      unfold globals at h
      obtain ⟨⟨between, strings''⟩, hdecl, h⟩ := except_bind_ok.1 h
      have hrest := globals_laid rest (global_laid hlaid hdecl) h
      rw [List.append_assoc] at hrest
      exact hrest

end Globals

end Codegen

-- ============================================================== programs

open Asm Codegen

/-- What is known of the symbols of a program: those defined are the ones made
up and the names of globals and functions, and those referred to are among
them. -/
structure Assembly.Accounted (p : Program) (asm : Assembly) : Prop where
  defined : asm.defined.Perm (asm.invented ++ p.names)
  invented : asm.invented.Nodup
  referred : ∀ name ∈ asm.referred, name ∈ asm.invented ++ p.names

/-- A generated program defines what it makes up and the names of the source, and
refers to nothing else. -/
theorem generate_accounted {p : Program} (hp : p.WellFormed) {noRedZone : Bool} {asm : Assembly}
    (h : p.generate noRedZone = .ok asm) (hsome : asm.isEmpty = false) :
    Assembly.Accounted p asm := by
  unfold Program.generate at h
  split at h
  · cases h
    cases hsome
  split at h
  · cases h
  rename_i hmain
  obtain ⟨⟨asm₁, strings₁⟩, hglobals, h⟩ := Steps.except_bind_ok.1 h
  obtain ⟨⟨asm₂, strings₂⟩, hfunctions, h⟩ := Steps.except_bind_ok.1 h
  cases h
  have hstart : Laid [] StringPool.empty.values.length Assembly.empty :=
    ⟨.nil, rfl, fun _ hname => absurd hname List.not_mem_nil⟩
  obtain ⟨hbss, hdata, hle, fns, hfns, hnames, hsymbols⟩ :=
    functions_symbols hp _ (fun decl hdecl => ⟨_, hp.function hdecl⟩) hfunctions
  obtain ⟨hplaced, hstrings, haddresses⟩ := (globals_laid _ hstart hglobals).mono hle
  rw [← hbss, ← hdata] at hplaced
  rw [← hdata] at hstrings haddresses
  rw [globals_functions _ hglobals] at hfns
  have hfns : asm₂.functions = fns := hfns
  have hinvented : Assembly.invented { asm₂ with data := asm₂.data ++ strings₂.data }
      = "_start" :: poolLabels strings₂ := by
    unfold Assembly.invented
    rw [List.filterMap_append, hstrings, data_stringLabels]
    rfl
  refine ⟨?_, ?_, ?_⟩
  · rw [hinvented]
    unfold Assembly.defined Program.names
    rw [List.map_append, data_names, hfns, hnames]
    refine .cons "_start" ?_
    -- the labels of the pool stand between the globals and the functions
    have hmove : (asm₂.bss.map Reservation.name ++ (asm₂.data.map Datum.name
          ++ poolLabels strings₂)).Perm
        (poolLabels strings₂ ++ (asm₂.bss.map Reservation.name ++ asm₂.data.map Datum.name)) := by
      rw [← List.append_assoc]
      exact List.perm_append_comm
    have hglobals := hmove.trans (hplaced.append_left _)
    have hall := hglobals.append_right (p.functions.map (·.name))
    rw [List.nil_append, List.append_assoc (poolLabels strings₂)] at hall
    exact hall
  · rw [hinvented]
    exact poolLabels_nodup strings₂
  · rw [hinvented]
    have hpool : ∀ name, Pooled strings₂.values.length name →
        name ∈ "_start" :: poolLabels strings₂ ++ p.names := fun name hname =>
      List.mem_append_left _ (List.mem_cons_of_mem _ (mem_poolLabels.2 hname))
    have hname : ∀ name, name ∈ p.globals.map (·.name) ∨ name ∈ p.functions.map (·.name) →
        name ∈ "_start" :: poolLabels strings₂ ++ p.names := fun name hname =>
      List.mem_append_right _ (List.mem_append.2 hname)
    intro name hreferred
    rcases List.mem_cons.1 hreferred with rfl | hreferred
    · obtain ⟨f, hf⟩ := Option.ne_none_iff_exists'.1 fun hnone =>
        hmain (Option.isNone_iff_eq_none.2 hnone)
      have hnamed : (f.name == "main") = true :=
        List.find?_some (p := fun decl : FunctionDecl => decl.name == "main") hf
      exact hname _ (Or.inr (List.mem_map.2 ⟨f, List.mem_of_find?_eq_some hf, beq_iff_eq.1 hnamed⟩))
    · rcases List.mem_append.1 hreferred with hreferred | hreferred
      · rw [List.flatMap_append, data_symbols, List.append_nil] at hreferred
        exact hpool name (haddresses name hreferred)
      · rw [hfns] at hreferred
        obtain ⟨f, hf, hreferred⟩ := List.mem_flatMap.1 hreferred
        obtain ⟨line, hline, hreferred⟩ := List.mem_flatMap.1 hreferred
        rcases hsymbols f hf line hline name hreferred with hglobal | hstring
        · exact hname name (Or.inl hglobal)
        · exact hpool name hstring

/-- Every symbol that the program of an accepted text refers to is defined. It
is defined once, unless a global or function has a name that the compiler
makes up, and then twice; no symbol is defined twice otherwise. -/
theorem symbols_unique {source : String} {report report' : Report} {p : Program}
    (hfront : frontend source report = (.ok p, report')) {noRedZone : Bool} {asm : Assembly}
    (hgen : p.generate noRedZone = .ok asm) (hsome : asm.isEmpty = false) :
    (asm.defined.Nodup ↔ ∀ name ∈ p.names, name ∉ asm.invented)
      ∧ ∀ name ∈ asm.referred,
        asm.defined.count name = if name ∈ p.names ∧ name ∈ asm.invented then 2 else 1 := by
  have hp := frontend_wellFormed hfront
  obtain ⟨hdefined, hinvented, hreferred⟩ := generate_accounted hp hgen hsome
  have hnames := hp.names_nodup
  refine ⟨?_, fun name hname => ?_⟩
  · rw [hdefined.nodup_iff, List.nodup_append]
    constructor
    · rintro ⟨-, -, hapart⟩ name hname hmade
      exact hapart name hmade name hname rfl
    · intro hapart
      refine ⟨hinvented, hnames, ?_⟩
      rintro name hmade other hother rfl
      exact hapart name hother hmade
  · have hmem := List.mem_append.1 (hreferred name hname)
    rw [hdefined.count_eq, List.count_append, hinvented.count, hnames.count]
    by_cases hmade : name ∈ asm.invented <;> by_cases hown : name ∈ p.names
    · rw [if_pos hmade, if_pos hown, if_pos ⟨hown, hmade⟩]
    · rw [if_pos hmade, if_neg hown, if_neg fun h => hown h.1]
    · rw [if_neg hmade, if_pos hown, if_neg fun h => hmade h.2]
    · exact (hmem.elim hmade hown).elim

/-- The symbols that the program assembled from a text defines and those that
it refers to, if it is accepted and assembled to something. -/
def symbolsOf (source : String) : Option (List String × List String) := do
  let program ← (frontend source (.empty false)).1.toOption
  let asm ← (program.generate false).toOption
  if asm.isEmpty then none else some (asm.defined, asm.referred)

theorem symbolsOf_some {source : String} {found : List String × List String}
    (h : symbolsOf source = some found) :
    ∃ program asm report, frontend source (.empty false) = (.ok program, report)
      ∧ program.generate false = .ok asm ∧ asm.isEmpty = false
      ∧ asm.defined = found.1 ∧ asm.referred = found.2 := by
  unfold symbolsOf at h
  obtain ⟨program, hfront, h⟩ := Option.bind_eq_some_iff.1 h
  obtain ⟨asm, hgen, h⟩ := Option.bind_eq_some_iff.1 h
  split at h
  · cases h
  · rename_i hsome
    cases h
    exact ⟨program, asm, _, Prod.ext (Steps.toOption_some.1 hfront) rfl,
      Steps.toOption_some.1 hgen, Bool.eq_false_iff.2 hsome, rfl, rfl⟩

/-- A global string and a string in a function, under names of their own. -/
def greeting : String :=
  "string hello = \"a\"; int main() \x7b string s = \"b\"; s = hello; return 0; \x7d"

/-- The program of `greeting` defines four symbols and its two strings, each
once, and `symbols_unique` says so of those it refers to. -/
theorem greeting_unique :
    ∃ program asm report, frontend greeting (.empty false) = (.ok program, report)
      ∧ program.generate false = .ok asm ∧ asm.isEmpty = false
      ∧ asm.defined = ["_start", "hello", "__str0", "__str1", "main"]
      ∧ asm.referred = ["main", "__str0", "__str1", "hello"]
      ∧ (asm.defined.Nodup ↔ ∀ name ∈ program.names, name ∉ asm.invented)
      ∧ ∀ name ∈ asm.referred,
        asm.defined.count name = if name ∈ program.names ∧ name ∈ asm.invented then 2 else 1 := by
  have h : symbolsOf greeting = some (["_start", "hello", "__str0", "__str1", "main"],
      ["main", "__str0", "__str1", "hello"]) := by decide +kernel
  obtain ⟨program, asm, report, hfront, hgen, hsome, hdefined, hreferred⟩ := symbolsOf_some h
  exact ⟨program, asm, report, hfront, hgen, hsome, hdefined, hreferred,
    symbols_unique hfront hgen hsome⟩

/-- A global that is called like the label of the string it holds. -/
def namedLikeString : String := "string __str0 = \"a\"; int main() { return 0; }"

/-- The text is accepted and assembled, and its program defines the symbol
that its data refers to twice. -/
theorem namedLikeString_clashes :
    ∃ program asm report, frontend namedLikeString (.empty false) = (.ok program, report)
      ∧ program.generate false = .ok asm ∧ asm.isEmpty = false
      ∧ ¬ asm.defined.Nodup ∧ "__str0" ∈ asm.referred ∧ asm.defined.count "__str0" = 2 := by
  have h : symbolsOf namedLikeString = some (["_start", "__str0", "__str0", "main"],
      ["main", "__str0"]) := by decide +kernel
  obtain ⟨program, asm, report, hfront, hgen, hsome, hdefined, hreferred⟩ := symbolsOf_some h
  refine ⟨program, asm, report, hfront, hgen, hsome, ?_, ?_, ?_⟩
  · rw [hdefined]
    decide
  · rw [hreferred]
    decide
  · rw [hdefined]
    decide

end MiniC
