/-
The locals of a function and where they live, read off the source alone.

# Locals

Parameters come first and then the variables that code is generated for, in
the order of their declaration, each at the next offset its alignment allows.
Scopes play no part in that: a slot is never handed out twice, so any two
locals are apart (`locals_apart`), all of them lie between the base pointer
and the depth of the frame (`locals_inside`), and every offset is a multiple
of the alignment (`locals_aligned`).

# Sites

A site is a place in a function where its code meets memory: one reference of
an expression, with the slots that the names in sight of it stand for, or a
local that gets its first value. The sites of a function are listed in the
order in which its code meets them, which is that of the text but for the
condition of a loop, which stands behind the body there, and for an
initializer, whose references come before the variable it is for. What folding
leaves out has no sites. So the list can be held against the operands of the
code one by one, and the proof about generated code does so.

# Names

Names are resolved by the scopes alone, innermost first, and a name comes into
sight behind its own initializer. What the sites of a function know about slots
is what the list of its locals says (`sites_settled`): the induction is over
the statements with the extent of the locals before them, and each `laid` part
of a statement is a part of the list of all. Consumed by the proof that
generated code keeps to its frame.
-/
import MiniC.Proofs.Codegen.Generation
import MiniC.Proofs.Source.Types

namespace MiniC

-- ================================================================= bytes

/-- Whether a byte, counted from the base pointer on, is one of so many that
start so far below it. -/
def Spans (offset size : Nat) (a : Int) : Prop := -(offset : Int) ≤ a ∧ a < -(offset : Int) + size

/-- The bytes of a part are bytes of the whole. -/
theorem Spans.within {k n offset size : Nat} (hlow : k ≤ offset) (hhigh : offset + n ≤ k + size)
    {a : Int} (h : Spans k n a) : Spans offset size a := by
  obtain ⟨hle, hlt⟩ := h
  constructor <;> omega

-- ================================================================ locals

/-- A local: a parameter or variable with the offset of its slot. -/
structure Local where
  decl : VariableDecl
  offset : Nat
deriving Repr

namespace Program

variable (p : Program)

/-- How many bytes a variable of a type takes. -/
def sizeOf (ty : Ty) : Nat := (Extent.ofTy p.extent ty).size

/-- The alignment of a variable of a type. -/
def alignOf (ty : Ty) : Nat := (Extent.ofTy p.extent ty).align

/-- The extent behind a variable that stands behind others. -/
def behind (whole : Extent) (decl : VariableDecl) : Extent :=
  whole.add (Extent.ofTy p.extent decl.ty)

/-- A variable that gets the next slot behind others. -/
def next (whole : Extent) (decl : VariableDecl) : Local := ⟨decl, (p.behind whole decl).size⟩

/-- Variables that get slots behind others, one after the other. -/
def locals (p : Program) : Extent → List VariableDecl → List Local
  | _, [] => []
  | whole, decl :: rest => p.next whole decl :: p.locals (p.behind whole decl) rest

/-- The locals of a function: its parameters, and the variables of its body
that code is generated for. -/
def frameLocals (decl : FunctionDecl) : List Local :=
  p.locals .empty (decl.params ++ laidAll decl.body)

end Program

section Arithmetic

variable {p : Program} {whole : Extent} {decls : List VariableDecl}

/-- Locals are laid out one behind the other. -/
theorem locals_append (p : Program) (whole : Extent) (decls decls' : List VariableDecl) :
    p.locals whole (decls ++ decls')
      = p.locals whole decls ++ p.locals (whole.addAll p.extent decls) decls' := by
  induction decls generalizing whole with
  | nil => rfl
  | cons decl rest ih =>
      show _ :: p.locals _ (rest ++ decls') = _ :: (p.locals _ rest ++ _)
      rw [ih]
      rfl

/-- A local lies behind what was there before it, and within the whole. -/
theorem locals_between {v : Local} (h : v ∈ p.locals whole decls) :
    whole.size + p.sizeOf v.decl.ty ≤ v.offset
      ∧ v.offset ≤ (whole.addAll p.extent decls).size := by
  induction decls generalizing whole with
  | nil => cases h
  | cons decl rest ih =>
      have hround := le_roundUp whole.size (Extent.ofTy p.extent decl.ty).align
      have hnext : whole.size + p.sizeOf decl.ty ≤ (p.behind whole decl).size :=
        Nat.add_le_add_right hround _
      rcases List.mem_cons.1 h with rfl | h
      · exact ⟨hnext, Extent.size_le_addAll p.extent rest _⟩
      · obtain ⟨hlow, hhigh⟩ := ih h
        exact ⟨Nat.le_trans (Nat.add_le_add_right (by omega) _) hlow, hhigh⟩

/-- Each local ends where the ones before it begin, or below. -/
theorem locals_spread (p : Program) (whole : Extent) (decls : List VariableDecl) :
    (p.locals whole decls).Pairwise fun earlier later =>
      earlier.offset + p.sizeOf later.decl.ty ≤ later.offset := by
  induction decls generalizing whole with
  | nil => exact .nil
  | cons decl rest ih =>
      refine List.pairwise_cons.2 ⟨fun later hlater => ?_, ih _⟩
      exact (locals_between hlater).1

/-- Two locals of a function have no byte in common. -/
theorem locals_apart (p : Program) (decl : FunctionDecl) :
    (p.frameLocals decl).Pairwise fun v w => ∀ a,
      ¬ (Spans v.offset (p.sizeOf v.decl.ty) a ∧ Spans w.offset (p.sizeOf w.decl.ty) a) := by
  refine (locals_spread p _ _).imp ?_
  rintro v w hle a ⟨⟨hv, -⟩, -, hw⟩
  omega

/-- Every local lies between the depth of the frame and the base pointer. -/
theorem locals_inside {decl : FunctionDecl} {v : Local} (h : v ∈ p.frameLocals decl) {a : Int}
    (ha : Spans v.offset (p.sizeOf v.decl.ty) a) :
    Spans (p.frameDepth decl) (p.frameDepth decl) a := by
  obtain ⟨hlow, hhigh⟩ := locals_between h
  have hhigh : v.offset ≤ p.frameDepth decl := hhigh
  obtain ⟨hle, hlt⟩ := ha
  constructor <;> omega

/-- Rounding up gives a multiple. -/
theorem dvd_roundUp (value : Nat) {align : Nat} (h : 0 < align) : align ∣ roundUp value align := by
  unfold roundUp
  split
  · rename_i hle
    obtain rfl : align = 1 := by omega
    exact Nat.one_dvd _
  · exact Nat.dvd_mul_left _ _

/-- A size is a multiple of its alignment: aggregates are padded. -/
theorem alignOf_dvd_sizeOf (p : Program) (ty : Ty) : p.alignOf ty ∣ p.sizeOf ty := by
  have haggregate : ∀ fuel name,
      (p.extentWith fuel name).align ∣ (p.extentWith fuel name).size := by
    intro fuel name
    cases fuel with
    | zero => exact Nat.one_dvd _
    | succ fuel =>
        unfold Program.extentWith
        split
        · exact Nat.one_dvd _
        · rename_i decl _
          exact dvd_roundUp _
            (Extent.Sane.addAll (p.extentWith_sane fuel) decl.members .empty).align_pos
  cases ty with
  | named name => exact haggregate _ name
  | void => exact Nat.one_dvd _
  | _ => exact Nat.dvd_refl _

/-- A local stands at a multiple of its alignment. -/
theorem locals_aligned {decl : FunctionDecl} {v : Local} (h : v ∈ p.frameLocals decl) :
    p.alignOf v.decl.ty ∣ v.offset := by
  unfold Program.frameLocals at h
  generalize Extent.empty = whole at h
  generalize decl.params ++ laidAll decl.body = decls at h
  induction decls generalizing whole with
  | nil => cases h
  | cons d rest ih =>
      rcases List.mem_cons.1 h with rfl | h
      · exact Nat.dvd_add (dvd_roundUp _ (p.extent_sane d.ty).align_pos) (alignOf_dvd_sizeOf p d.ty)
      · exact ih _ h

end Arithmetic

-- ================================================================ scopes

/-- The slots that names stand for, innermost scope first. -/
abbrev Scopes : Type := List (List (String × StackSlot))

namespace Scopes

/-- The slot of a name; the innermost scope that binds it decides. -/
def lookup? (scopes : Scopes) (name : String) : Option StackSlot :=
  scopes.findSome? fun scope => scope.lookup name

/-- Brings a local into the innermost scope. -/
def bring (scopes : Scopes) (v : Local) : Scopes :=
  match scopes with
  | [] => []
  | scope :: outer => ((v.decl.name, ⟨v.offset, v.decl.ty⟩) :: scope) :: outer

/-- Whether names stand for locals of the list. -/
def Settled (locals : List Local) (scopes : Scopes) : Prop :=
  ∀ b ∈ scopes.flatten, ∃ v ∈ locals,
    v.decl.name = b.1 ∧ v.decl.ty = b.2.ty ∧ v.offset = b.2.offset

variable {locals : List Local} {scopes : Scopes}

theorem Settled.push (h : Settled locals scopes) : Settled locals ([] :: scopes) := h

/-- A local that comes into sight stands where it should. -/
theorem Settled.bring (h : Settled locals scopes) {v : Local} (hv : v ∈ locals) :
    Settled locals (scopes.bring v) := by
  cases scopes with
  | nil => exact h
  | cons scope outer =>
      intro b hb
      rcases List.mem_cons.1 hb with rfl | hb
      · exact ⟨v, hv, rfl, rfl, rfl⟩
      · exact h b hb

/-- A name that is found stands for a local of its name and type. -/
theorem Settled.lookup (h : Settled locals scopes) {name : String} {slot : StackSlot}
    (hlook : scopes.lookup? name = some slot) :
    ∃ v ∈ locals, v.decl.name = name ∧ v.decl.ty = slot.ty ∧ v.offset = slot.offset := by
  obtain ⟨scope, hscope, hfound⟩ := List.exists_of_findSome?_eq_some hlook
  exact h (name, slot) (List.mem_flatten.2 ⟨scope, hscope, mem_of_lookup hfound⟩)

end Scopes

-- ================================================================= sites

/-- Where code meets memory: a reference of an expression, with the slots of
the names in sight of it, or a local that is given its first value. -/
inductive Site where
  | ref (scopes : Scopes) (e : Expr)
  | first (v : Local)

/-- What a statement brings into sight behind itself. -/
def Stmt.bring (p : Program) (scopes : Scopes) (whole : Extent) : Stmt → Scopes
  | .variable decl => scopes.bring (p.next whole decl)
  | _ => scopes

mutual

/-- The sites of a statement in the order in which its code meets them, given
the names in sight and the extent of the locals before it. What folding leaves
out has none. -/
def Stmt.sites (p : Program) : Stmt → Scopes → Extent → List Site
  | .block body, scopes, whole => sitesAll p body ([] :: scopes) whole
  | .branch arm, scopes, whole => arm.sites p scopes whole
  | .loop e body _, scopes, whole =>
    if e.isConstant && e.foldsToZero.toOption == some true then []
    else sitesAll p body ([] :: scopes) whole ++ e.references.map (.ref scopes)
  | .ret none _, _, _ => []
  | .ret (some e) _, scopes, _ => e.references.map (.ref scopes)
  | .variable decl, scopes, whole =>
    match decl.init with
    | none => []
    | some e => e.references.map (.ref scopes) ++ [.first (p.next whole decl)]
  | .expr e, scopes, _ => e.effects.map (.ref scopes)
  | .function _, _, _ => []
  | .aggregate _, _, _ => []

/-- The sites of statements in order. -/
def sitesAll (p : Program) : List Stmt → Scopes → Extent → List Site
  | [], _, _ => []
  | st :: rest, scopes, whole =>
    st.sites p scopes whole
      ++ sitesAll p rest (st.bring p scopes whole) (whole.addAll p.extent st.laid)

/-- The sites of an if chain from an arm on. -/
def Arm.sites (p : Program) : Arm → Scopes → Extent → List Site
  | ⟨e, consequent, alternate, _⟩, scopes, whole =>
    if e.isConstant then
      match e.foldsToZero with
      | .ok true => alternate.sites p scopes whole
      | .ok false => sitesAll p consequent ([] :: scopes) whole
      | .error _ => []
    else
      e.references.map (.ref scopes) ++ (sitesAll p consequent ([] :: scopes) whole
        ++ alternate.sites p scopes (whole.addAll p.extent (laidAll consequent)))

/-- The sites of an alternate. -/
def Alternate.sites (p : Program) : Alternate → Scopes → Extent → List Site
  | .none, _, _ => []
  | .block body, scopes, whole => sitesAll p body ([] :: scopes) whole
  | .elseIf arm, scopes, whole => arm.sites p scopes whole

end

/-- What statements bring into sight behind themselves. -/
def bringAll (p : Program) : List Stmt → Scopes → Extent → Scopes
  | [], scopes, _ => scopes
  | st :: rest, scopes, whole =>
    bringAll p rest (st.bring p scopes whole) (whole.addAll p.extent st.laid)

/-- The parameters of a function as locals. -/
def Program.paramLocals (p : Program) (decl : FunctionDecl) : List Local :=
  p.locals .empty decl.params

/-- What the body of a function has in sight. -/
def Program.paramScopes (p : Program) (decl : FunctionDecl) : Scopes :=
  (p.paramLocals decl).foldl Scopes.bring [[]]

/-- The sites of a function: its parameters, which are stored first, and those
of its body. -/
def Program.sites (p : Program) (decl : FunctionDecl) : List Site :=
  (p.paramLocals decl).map .first
    ++ sitesAll p decl.body (p.paramScopes decl) (Extent.ofDecls p.extent decl.params)

/-- Declarations go to the innermost scope. -/
theorem bring_cons (p : Program) (scope : List (String × StackSlot)) (outer : Scopes)
    (whole : Extent) (st : Stmt) :
    ∃ scope', st.bring p (scope :: outer) whole = scope' :: outer := by
  unfold Stmt.bring
  split
  · exact ⟨_, rfl⟩
  · exact ⟨_, rfl⟩

/-- Statements bring names into the innermost scope only. -/
theorem bringAll_cons (p : Program) (scope : List (String × StackSlot)) (outer : Scopes)
    (whole : Extent) (body : List Stmt) :
    ∃ scope', bringAll p body (scope :: outer) whole = scope' :: outer := by
  induction body generalizing scope whole with
  | nil => exact ⟨scope, rfl⟩
  | cons st rest ih =>
      obtain ⟨scope', hscope'⟩ := bring_cons p scope outer whole st
      unfold bringAll
      rw [hscope']
      exact ih scope' _

-- ====================================================== what sites know

section Settled

variable {p : Program} {all : List Local}

/-- Whether a site knows of no slots but those of the given locals. -/
def Site.Settled (all : List Local) : Site → Prop
  | .ref scopes _ => scopes.Settled all
  | .first v => v ∈ all

/-- What a statement brings into sight stands where it should. -/
theorem bring_settled {st : Stmt} {scopes : Scopes} {whole : Extent} (hs : scopes.Settled all)
    (hlaid : ∀ v ∈ p.locals whole st.laid, v ∈ all) : (st.bring p scopes whole).Settled all := by
  unfold Stmt.bring
  split
  · exact hs.bring (hlaid _ List.mem_cons_self)
  · exact hs

/-- References in one scope. -/
theorem refs_settled {scopes : Scopes} (hs : scopes.Settled all) (es : List Expr) :
    ∀ site ∈ es.map (Site.ref scopes), site.Settled all := by
  intro site hsite
  obtain ⟨e, -, rfl⟩ := List.mem_map.1 hsite
  exact hs

/-- Of locals behind one another the first and the second part are in. -/
theorem locals_parts {whole : Extent} {a b : List VariableDecl}
    (h : ∀ v ∈ p.locals whole (a ++ b), v ∈ all) :
    (∀ v ∈ p.locals whole a, v ∈ all)
      ∧ ∀ v ∈ p.locals (whole.addAll p.extent a) b, v ∈ all := by
  rw [locals_append] at h
  exact ⟨fun v hv => h v (List.mem_append_left _ hv), fun v hv => h v (List.mem_append_right _ hv)⟩

mutual

/-- The sites of a statement know of its own locals and of those before. -/
theorem Stmt.sites_settled : ∀ (st : Stmt) {scopes : Scopes} {whole : Extent},
    scopes.Settled all → (∀ v ∈ p.locals whole st.laid, v ∈ all) →
    ∀ site ∈ st.sites p scopes whole, site.Settled all
  | .block body, scopes, whole, hs, hlaid => by
      unfold Stmt.sites
      exact sitesAll_settled body hs.push hlaid
  | .branch arm, scopes, whole, hs, hlaid => by
      unfold Stmt.sites
      exact Arm.sites_settled arm hs hlaid
  | .loop e body pos, scopes, whole, hs, hlaid => by
      unfold Stmt.laid at hlaid
      unfold Stmt.sites
      intro site hsite
      split at hsite
      · cases hsite
      · rename_i hnever
        rw [if_neg hnever] at hlaid
        rcases List.mem_append.1 hsite with hsite | hsite
        · exact sitesAll_settled body hs.push hlaid site hsite
        · exact refs_settled hs e.references site hsite
  | .ret none pos, scopes, whole, hs, hlaid => by
      unfold Stmt.sites
      exact nofun
  | .ret (some e) pos, scopes, whole, hs, hlaid => by
      unfold Stmt.sites
      exact refs_settled hs e.references
  | .variable decl, scopes, whole, hs, hlaid => by
      unfold Stmt.sites
      split
      · exact nofun
      · intro site hsite
        rcases List.mem_append.1 hsite with hsite | hsite
        · exact refs_settled hs _ site hsite
        · rw [List.mem_singleton.1 hsite]
          exact hlaid _ List.mem_cons_self
  | .expr e, scopes, whole, hs, hlaid => by
      unfold Stmt.sites
      exact refs_settled hs e.effects
  | .function _, scopes, whole, hs, hlaid => by
      unfold Stmt.sites
      exact nofun
  | .aggregate _, scopes, whole, hs, hlaid => by
      unfold Stmt.sites
      exact nofun

theorem sitesAll_settled : ∀ (body : List Stmt) {scopes : Scopes} {whole : Extent},
    scopes.Settled all → (∀ v ∈ p.locals whole (laidAll body), v ∈ all) →
    ∀ site ∈ sitesAll p body scopes whole, site.Settled all
  | [], scopes, whole, hs, hlaid => by
      unfold sitesAll
      exact nofun
  | st :: rest, scopes, whole, hs, hlaid => by
      unfold laidAll at hlaid
      obtain ⟨hfirst, hrest⟩ := locals_parts hlaid
      unfold sitesAll
      intro site hsite
      rcases List.mem_append.1 hsite with hsite | hsite
      · exact Stmt.sites_settled st hs hfirst site hsite
      · exact sitesAll_settled rest (bring_settled hs hfirst) hrest site hsite

theorem Arm.sites_settled : ∀ (arm : Arm) {scopes : Scopes} {whole : Extent},
    scopes.Settled all → (∀ v ∈ p.locals whole arm.laid, v ∈ all) →
    ∀ site ∈ arm.sites p scopes whole, site.Settled all
  | ⟨e, consequent, alternate, pos⟩, scopes, whole, hs, hlaid => by
      unfold Arm.laid at hlaid
      unfold Arm.sites
      intro site hsite
      split at hsite
      · rename_i hc
        rw [if_pos hc] at hlaid
        split at hsite
        · rename_i hzero
          rw [hzero] at hlaid
          exact Alternate.sites_settled alternate hs hlaid site hsite
        · rename_i hzero
          rw [hzero] at hlaid
          exact sitesAll_settled consequent hs.push hlaid site hsite
        · cases hsite
      · rename_i hc
        rw [if_neg hc] at hlaid
        obtain ⟨hfirst, hother⟩ := locals_parts hlaid
        rcases List.mem_append.1 hsite with hsite | hsite
        · exact refs_settled hs e.references site hsite
        rcases List.mem_append.1 hsite with hsite | hsite
        · exact sitesAll_settled consequent hs.push hfirst site hsite
        · exact Alternate.sites_settled alternate hs hother site hsite

theorem Alternate.sites_settled : ∀ (alternate : Alternate) {scopes : Scopes} {whole : Extent},
    scopes.Settled all → (∀ v ∈ p.locals whole alternate.laid, v ∈ all) →
    ∀ site ∈ alternate.sites p scopes whole, site.Settled all
  | .none, scopes, whole, hs, hlaid => by
      unfold Alternate.sites
      exact nofun
  | .block body, scopes, whole, hs, hlaid => by
      unfold Alternate.sites
      exact sitesAll_settled body hs.push hlaid
  | .elseIf arm, scopes, whole, hs, hlaid => by
      unfold Alternate.sites
      exact Arm.sites_settled arm hs hlaid

end

/-- The sites of a function know of its locals only. -/
theorem sites_settled (p : Program) (decl : FunctionDecl) :
    ∀ site ∈ p.sites decl, site.Settled (p.frameLocals decl) := by
  have hall : ∀ v ∈ p.locals .empty (decl.params ++ laidAll decl.body), v ∈ p.frameLocals decl :=
    fun v hv => hv
  obtain ⟨hparams, hbody⟩ := locals_parts hall
  have hscopes : ∀ (vs : List Local) (scopes : Scopes), (∀ v ∈ vs, v ∈ p.frameLocals decl) →
      scopes.Settled (p.frameLocals decl) →
      (vs.foldl Scopes.bring scopes).Settled (p.frameLocals decl) := by
    intro vs
    induction vs with
    | nil => exact fun _ _ hs => hs
    | cons v rest ih =>
        intro scopes hvs hs
        exact ih _ (fun w hw => hvs w (List.mem_cons_of_mem v hw))
          (hs.bring (hvs v List.mem_cons_self))
  intro site hsite
  rcases List.mem_append.1 hsite with hsite | hsite
  · obtain ⟨v, hv, rfl⟩ := List.mem_map.1 hsite
    exact hparams v hv
  · refine sitesAll_settled decl.body (hscopes _ _ hparams ?_) hbody site hsite
    exact fun b hb => by cases hb

end Settled

end MiniC
