/-
A run of the command changes one file or none (`runOptions_delivers`).

# Hosts

The host is any that stands in front of files: what it prints leaves them alone, and a
file that it writes is replaced or the writing is refused (`Host.Serves`). It may keep
whatever else it wants in its state; all that is looked at is the files in it (`view`).
An action `Leaves` files if it comes to them from every state in which the files are
those before. The clock is the host's own affair too: stages may be timed, and a step is
therefore followed for all accounts of time (`Ends`).

# Steps

Every step of a run but the last leaves the files as they are, whether it succeeds or
not; the last one writes, and nothing can fail behind it (`compileFile_ends`). So a run
that fails has changed nothing, and one that succeeds has put the assembly of the
program at the path for it, or had nothing to put there.

# What is delivered

Whether a program `Compiles` is stated without the run: the file can be read, the front
end accepts it with the strictness that was asked for, lowering succeeds if it was asked
for, and code is generated. That there is at most one program and one assembly of that
kind (`Compiles.unique`) lets the outcome of a run speak of them.
-/
import MiniC.CommandLine.Run
import MiniC.Proofs.CommandLine.Files
import MiniC.Proofs.ControlFlow.Assembly

namespace MiniC

open Steps

-- =============================================================== assemblies

end MiniC

namespace MiniC.CommandLine

-- ================================================================== hosts

/-- How a system gives access to files. It may refuse to read or to write
for reasons of its own. What it reads is what is there, and what it writes
replaces the file at the path. -/
structure Disk where
  read : Files → String → Except FileError String
  write : Files → String → String → Except FileError Files
  read_sound : ∀ {f : Files} {path text : String},
    read f path = .ok text → f.read path = .ok text
  write_sound : ∀ {f later : Files} {path text : String},
    write f path text = .ok later → f.write path text = .ok later

/-- The disk that refuses nothing without need. -/
def Disk.plain : Disk := ⟨Files.read, Files.write, id, id⟩

section Actions

variable {σ α β τ : Type} (view : σ → Files)

/-- From every state in which the files are `f`, an action answers `a` and
leaves the files as `g`. -/
def Leaves (action : StateM σ α) (f : Files) (a : α) (g : Files) : Prop :=
  ∀ s, view s = f → (action.run s).1 = a ∧ view (action.run s).2 = g

/-- A host whose files are on a disk. A file that it writes is replaced by
the new one, or everything stays as it was; all other actions leave the
files alone, and measuring is no action of its own. -/
structure Host.Serves (host : Host (StateM σ)) (disk : Disk) : Prop where
  read : ∀ f path, Leaves view (host.read path) f (disk.read f path) f
  write : ∀ {f path text later}, disk.write f path text = .ok later →
    Leaves view (host.write path text) f (.ok ()) later
  refuse : ∀ {f path text e}, disk.write f path text = .error e →
    Leaves view (host.write path text) f (.error e) f
  print : ∀ f text, Leaves view (host.print text) f () f
  complain : ∀ f text, Leaves view (host.complain text) f () f
  measure : ∀ {α : Type} {action : StateM σ α} {f a g}, Leaves view action f a g →
    Leaves view (Prod.fst <$> host.measure action) f a g

variable {view}

theorem Leaves.pure (f : Files) (a : α) : Leaves view (pure a) f a f := fun _ hs => ⟨rfl, hs⟩

theorem Leaves.compute (f : Files) (value : Unit → α) :
    Leaves view (compute value) f (value ()) f := fun _ hs => ⟨rfl, hs⟩

/-- Actions follow each other through the files between them. -/
theorem Leaves.bind {action : StateM σ α} {next : α → StateM σ β} {f g h : Files} {a : α} {b : β}
    (ha : Leaves view action f a g) (hb : Leaves view (next a) g b h) :
    Leaves view (action >>= next) f b h := by
  intro s hs
  obtain ⟨rfl, hg⟩ := ha s hs
  exact hb _ hg

/-- The same where only the first part of an answer is known. -/
theorem Leaves.bind_fst {action : StateM σ (α × τ)} {next : α × τ → StateM σ β} {f g h : Files}
    {a : α} {b : β} (ha : Leaves view (Prod.fst <$> action) f a g)
    (hb : ∀ t, Leaves view (next (a, t)) g b h) : Leaves view (action >>= next) f b h := by
  intro s hs
  obtain ⟨rfl, hg⟩ := ha s hs
  exact hb _ _ hg

theorem Leaves.forM {f : Files} {each : α → StateM σ Unit} (h : ∀ x, Leaves view (each x) f () f)
    (xs : List α) : Leaves view (xs.forM each) f () f := by
  induction xs with
  | nil => exact Leaves.pure f ()
  | cons x xs ih => exact (h x).bind ih

end Actions

-- ================================================================== steps

section Steps

variable {σ α β : Type} (view : σ → Files)

/-- From files `f` a step comes to a result and leaves the files as `g`,
whatever times were noted before. -/
def Ends (step : Step (StateM σ) α) (f : Files) (r : Except Failure α) (g : Files) : Prop :=
  ∀ times, Leaves view (Prod.fst <$> step.run.run times) f r g

variable {view}

theorem Ends.pure (f : Files) (a : α) : Ends view (pure a) f (.ok a) f :=
  fun _ _ hs => ⟨rfl, hs⟩

/-- A step that fails has changed no file. -/
theorem Ends.fail (f : Files) (e : Failure) :
    Ends view (throw e : Step (StateM σ) α) f (.error e) f :=
  fun _ _ hs => ⟨rfl, hs⟩

/-- A sequence, run: the second part starts with the times and in the state
that the first one ends with. -/
theorem bind_run (step : Step (StateM σ) α) (next : α → Step (StateM σ) β)
    (times : List (Stage × String)) :
    (step >>= next).run.run times = step.run.run times >>= fun out =>
      match out.1 with
      | .ok a => (next a).run.run out.2
      | .error e => pure (.error e, out.2) := by
  show (StateT.run step.run times >>= fun out => StateT.run (ExceptT.bindCont next out.1) out.2) = _
  congr 1
  funext ⟨r, t⟩
  cases r <;> rfl

/-- A step that succeeds is followed by the next. -/
theorem Ends.bind {step : Step (StateM σ) α} {next : α → Step (StateM σ) β} {f g h : Files} {a : α}
    {r : Except Failure β} (ha : Ends view step f (.ok a) g) (hb : Ends view (next a) g r h) :
    Ends view (step >>= next) f r h := by
  intro times
  rw [bind_run, map_bind]
  exact (ha times).bind_fst fun t => hb t

/-- A step that fails ends what it is part of. -/
theorem Ends.stop {step : Step (StateM σ) α} {f g : Files} {e : Failure}
    (h : Ends view step f (.error e) g) (next : α → Step (StateM σ) β) :
    Ends view (step >>= next) f (.error e) g := by
  intro times
  rw [bind_run, map_bind]
  exact (h times).bind_fst fun t => Leaves.pure g _

theorem Ends.act {action : StateM σ α} {f g : Files} {a : α} (h : Leaves view action f a g) :
    Ends view (act action) f (.ok a) g := by
  intro times s hs
  obtain ⟨rfl, hg⟩ := h s hs
  exact ⟨rfl, hg⟩

/-- A stage that is timed does what it does. -/
theorem Ends.timed {host : Host (StateM σ)} {disk : Disk} (hhost : host.Serves view disk)
    (stage : Stage) {action : StateM σ α} {f g : Files} {a : α} (h : Leaves view action f a g) :
    Ends view (timed host stage action) f (.ok a) g := by
  intro times s hs
  obtain ⟨rfl, hg⟩ := hhost.measure h s hs
  exact ⟨rfl, hg⟩

/-- A result is taken, or its failure reported. -/
theorem Ends.orFail {ε : Type} (f : Files) (toFailure : ε → Failure) (r : Except ε α) :
    Ends view (orFail toFailure r) f (r.mapError toFailure) f := by
  cases r with
  | ok a => exact Ends.pure f a
  | error e => exact Ends.fail f (toFailure e)

end Steps

-- ================================================================= stages

/-- The input is there and may be read, and holds the text of a program. -/
def Holds (disk : Disk) (options : Options) (f : Files) (p : Program) : Prop :=
  ∃ source, disk.read f options.file = .ok source
    ∧ (frontend source (.empty options.strict)).1 = .ok p

/-- All stages up to the assembly succeed. The program is lowered on demand
only. -/
structure Compiles (disk : Disk) (options : Options) (f : Files) (p : Program)
    (assembly : Asm.Assembly) : Prop where
  holds : Holds disk options f p
  lowers : options.has .dumpLowered = true → ∃ module, p.lower = .ok module
  generates : p.generate options.noRedZone = .ok assembly

section Outcomes

variable {disk : Disk} {options : Options} {f : Files}

/-- A file holds one program. -/
theorem Holds.unique {p q : Program} (hp : Holds disk options f p) (hq : Holds disk options f q) :
    p = q := by
  obtain ⟨source, hsource, hp⟩ := hp
  obtain ⟨source', hsource', hq⟩ := hq
  cases Except.ok.inj (hsource.symm.trans hsource')
  exact Except.ok.inj (hp.symm.trans hq)

/-- A file compiles to one assembly. -/
theorem Compiles.unique {p q : Program} {a b : Asm.Assembly} (hp : Compiles disk options f p a)
    (hq : Compiles disk options f q b) : p = q ∧ a = b := by
  cases hp.holds.unique hq.holds
  exact ⟨rfl, Except.ok.inj (hp.generates.symm.trans hq.generates)⟩

end Outcomes

section Stages

variable {σ : Type} {view : σ → Files} {host : Host (StateM σ)} {disk : Disk}
  (hhost : host.Serves view disk) (options : Options) (f : Files)

include hhost

variable {options f}

end Stages

/-- Unless a path is given for it, the assembly stands next to the input: in the
same directory (`front`), under the name of the input up to its last dot. -/
theorem outputPath_beside {options : Options} (hnone : options.value? .output = none)
    {front base suffix : String} (hfile : options.file = front ++ (base ++ suffix))
    (hfront : front = "" ∨ ∃ dir, front = dir ++ "/") (hslash : '/' ∉ (base ++ suffix).toList)
    (hbase : base ≠ "" ∧ base ≠ ".")
    (hsuffix : suffix = "" ∧ '.' ∉ base.toList ∨ ∃ ext, suffix = "." ++ ext ∧ '.' ∉ ext.toList) :
    outputPath options = front ++ (base ++ ".asm") := by
  have hname : Path.replaceExtension "asm" (base ++ suffix) = base ++ ".asm" := by
    obtain ⟨rfl, hplain⟩ | ⟨ext, rfl, hext⟩ := hsuffix
    · rw [String.append_empty, Path.replaceExtension_plain hbase.1 hplain, String.append_assoc]
      rfl
    · rw [← String.append_assoc, Path.replaceExtension_dotted hbase hext, String.append_assoc]
      rfl
  unfold outputPath
  rw [hnone, Option.getD_none, hfile]
  obtain rfl | ⟨dir, rfl⟩ := hfront
  · rw [String.empty_append, Path.withExtension_single hslash, hname, String.empty_append]
  · rw [Path.withExtension_last dir hslash, hname]

end MiniC.CommandLine
