import Foolscap.Command
import Foolscap.Proofs.Files.Written

/-!
# Commands on a file tree

The steps of a command on a file tree: what each results in, what it puts out, and the files that it
leaves behind.  What a command logs and writes to the error output is of no account here.
-/

namespace Foolscap

/-! ### Consoles -/

namespace Console

variable {α β : Type}

/-- What becomes of a computation, of the console and of the files. -/
def exec (c : Console (StateM FileTree) α) (s : Transcript) (t : FileTree) :
    (Except Exit α × Transcript) × FileTree :=
  StateT.run (StateT.run (ExceptT.run c) s) t

/-- A computation ends with a result, puts out a text and leaves files behind. -/
def Yields (c : Console (StateM FileTree) α) (t : FileTree) (r : Except Exit α) (u : Text)
    (t' : FileTree) : Prop :=
  ∀ s, ∃ s', s'.out = s.out ++ u ∧ c.exec s t = ((r, s'), t')

variable {c : Console (StateM FileTree) α} {f : α → Console (StateM FileTree) β}
  {t t₁ t₂ : FileTree} {a : α} {r : Except Exit β} {u v : Text}

/-- One computation after another: what they put out is joined, and the second one finds the files
that the first one leaves. -/
theorem Yields.bind (hc : c.Yields t (.ok a) u t₁) (hf : (f a).Yields t₁ r v t₂) :
    (c >>= f).Yields t r (u ++ v) t₂ := by
  intro s
  obtain ⟨s₁, hout₁, hexec₁⟩ := hc s
  obtain ⟨s₂, hout₂, hexec₂⟩ := hf s₁
  refine ⟨s₂, by rw [hout₂, hout₁, List.append_assoc], ?_⟩
  unfold exec at hexec₁ hexec₂ ⊢
  rw [ExceptT.run_bind, StateT.run_bind, FileTree.run_bind_of_run hexec₁]
  exact hexec₂

/-- Nothing is put out by the first of two computations. -/
theorem Yields.andThen (hc : c.Yields t (.ok a) [] t₁) (hf : (f a).Yields t₁ r u t₂) :
    (c >>= f).Yields t r u t₂ :=
  hc.bind hf

/-- Nothing is put out by the second of two computations. -/
theorem Yields.quietly (hc : c.Yields t (.ok a) u t₁) (hf : (f a).Yields t₁ r [] t₂) :
    (c >>= f).Yields t r u t₂ := by
  rw [← List.append_nil u]
  exact hc.bind hf

/-- A computation that changes nothing but the error output, the log and its settings. -/
theorem yields_of_exec {r : Except Exit α} (h : ∀ s, ∃ s', s'.out = s.out ∧
    c.exec s t = ((r, s'), t)) : c.Yields t r [] t := by
  intro s
  obtain ⟨s', hout, hexec⟩ := h s
  exact ⟨s', by rw [hout, List.append_nil], hexec⟩

theorem yields_pure (t : FileTree) (a : α) : (pure a : Console _ α).Yields t (.ok a) [] t :=
  yields_of_exec fun s => ⟨s, rfl, rfl⟩

theorem yields_say (t : FileTree) (u : Text) : (say u : Console _ Unit).Yields t (.ok ()) u t :=
  fun s => ⟨{ s with out := s.out ++ u }, rfl, rfl⟩

theorem yields_complain (t : FileTree) (u : Text) :
    (complain u : Console _ Unit).Yields t (.ok ()) [] t :=
  yields_of_exec fun s => ⟨{ s with err := s.err ++ u }, rfl, rfl⟩

theorem yields_note (t : FileTree) (log : List LogLine) :
    (note log : Console _ Unit).Yields t (.ok ()) [] t :=
  yields_of_exec fun s => ⟨{ s with log := s.log ++ log }, rfl, rfl⟩

theorem yields_configure (t : FileTree) (settings : LogSettings) :
    (configure settings : Console _ Unit).Yields t (.ok ()) [] t :=
  yields_of_exec fun s => ⟨{ s with logging := some settings }, rfl, rfl⟩

theorem yields_logged (t : FileTree) (a : Logged α) :
    (logged a : Console _ α).Yields t (.ok a.value) [] t :=
  .andThen (yields_note t a.log) (yields_pure t a.value)

theorem yields_fail (t : FileTree) (u : Text) :
    (fail u : Console _ α).Yields t (.error .failed) [] t :=
  .andThen (yields_complain t (u ++ [Text.newline])) (yields_of_exec fun s => ⟨s, rfl, rfl⟩)

theorem yields_on {act : StateM FileTree α} (h : act.run t = (a, t₁)) :
    (on act : Console _ α).Yields t (.ok a) [] t₁ := by
  intro s
  have hact : (on act : Console _ α).exec s t = ((.ok (act.run t).1, s), (act.run t).2) := rfl
  exact ⟨s, (List.append_nil s.out).symm, by rw [hact, h]⟩

theorem yields_onFiles {act : StateM FileTree (Except FileError α)}
    (h : act.run t = (.ok a, t₁)) : (onFiles act : Console _ α).Yields t (.ok a) [] t₁ :=
  .andThen (yields_on h) (yields_pure t₁ a)

/-- How a command ends, be it early or not. -/
def exitOf : Except Exit Exit → Exit
  | .ok e => e
  | .error e => e

/-- A command from an empty console. -/
theorem Yields.run {c : Console (StateM FileTree) Exit} {r : Except Exit Exit}
    (h : c.Yields t r u t₁) : ∃ s, s.out = u ∧ (Console.run c).run t = ((exitOf r, s), t₁) := by
  obtain ⟨s, hout, hexec⟩ := h {}
  refine ⟨s, hout, ?_⟩
  unfold exec at hexec
  rw [Console.run, FileTree.run_bind_of_run hexec]
  cases r <;> rfl

end Console

namespace FileTree

variable {cwd id p data : Text} {t : FileTree}

theorem host_read_run (h : t.read cwd p = .ok data) :
    ((host cwd id).read p).run t = (.ok data, t) := congrArg (·, t) h

theorem host_write_run {t' : FileTree} (h : t.write cwd p data = .ok t') :
    ((host cwd id).write p data).run t = (.ok (), t') := by
  simp only [host, commit, StateT.run, bind, StateT.bind, get, getThe, MonadStateOf.get, StateT.get,
    pure, h]
  rfl

end FileTree

/-! ### Flags -/

namespace Flag

variable {σ : Type} {flags : List (Flag σ)}

theorem exists_of_bind {α β : Type} {x : Except FlagError α} {f : α → Except FlagError β} {b : β}
    (h : x >>= f = .ok b) : ∃ a, x = .ok a ∧ f a = .ok b := by
  cases x with
  | error e => cases h
  | ok a => exact ⟨a, rfl, h⟩

variable {s : σ} {args : List Text}

/-- A flag uses up its argument, and perhaps the next one. -/
theorem parse_flag {arg name : Text} {value : Option Text} {r : σ × List Text}
    (hread : Argument.read arg = .flag name value) (h : parse flags s (arg :: args) = .ok r) :
    ∃ s' used left, args = used ++ left ∧
      ∀ rest, parse flags s (arg :: (used ++ rest)) = parse flags s' rest := by
  rw [parse, hread] at h
  cases value with
  | some value =>
    obtain ⟨f, hflag, h⟩ := exists_of_bind h
    obtain ⟨s', happly, -⟩ := exists_of_bind h
    refine ⟨s', [], args, rfl, fun rest => ?_⟩
    rw [List.nil_append, parse, hread]
    simp only [hflag, happly, bind, Except.bind]
  | none =>
    obtain ⟨f, hflag, h⟩ := exists_of_bind h
    by_cases hswitch : f.isSwitch
    · rw [if_pos hswitch] at h
      obtain ⟨s', happly, -⟩ := exists_of_bind h
      refine ⟨s', [], args, rfl, fun rest => ?_⟩
      rw [List.nil_append, parse, hread]
      simp only [hflag, happly, hswitch, bind, Except.bind, if_true]
    · rw [if_neg hswitch] at h
      cases args with
      | nil => cases h
      | cons value args =>
        obtain ⟨s', happly, -⟩ := exists_of_bind h
        refine ⟨s', [value], args, rfl, fun rest => ?_⟩
        rw [List.singleton_append, parse, hread]
        simp only [hflag, happly, hswitch, bind, Except.bind]
        rfl

/-- Flags in front of other arguments, as long as no mark ends the flags. -/
theorem parse_append {o : σ} (h : parse flags s args = .ok (o, []))
    (hstop : ∀ arg ∈ args, Argument.read arg ≠ .stop) (rest : List Text) :
    parse flags s (args ++ rest) = parse flags o rest := by
  -- A flag may use up two arguments, so the induction is on their number.
  induction hn : args.length using Nat.strongRecOn generalizing s args with
  | _ n ih =>
    cases args with
    | nil =>
      cases h
      rfl
    | cons arg args =>
      cases hread : Argument.read arg with
      | plain =>
        rw [parse, hread] at h
        cases h
      | stop => exact absurd hread (hstop arg (by simp))
      | malformed =>
        rw [parse, hread] at h
        cases h
      | flag name value =>
        obtain ⟨s', used, left, rfl, hstep⟩ := parse_flag hread h
        rw [hstep] at h
        rw [List.cons_append, List.append_assoc, hstep]
        refine ih left.length ?_ h (fun a ha => hstop a (by simp [ha])) rfl
        rw [← hn, List.length_cons, List.length_append]
        omega

end Flag

/-! ### Commands -/

namespace Command

open Console

/-- Options together with settings: the settings give what the options leave open. -/
def Options.under (o : Options) (s : Manifest) : Options :=
  { o with
    memory := if o.memory ≤ 0 then s.memory else o.memory
    trace := o.trace || s.trace }

/-- How running a program ends, and what it puts out. -/
def executed (limit : Nat) (o : Options) (p : Executable) : Except Exit Exit × Text :=
  match Machine.new? o.memory with
  | none => (.ok .exhausted, [])
  | some machine => match p.run o.trace limit machine with
    | none => (.error .failed, [])
    | some run => (.ok (if run.value.error.isSome then .faulted else .ok), run.value.machine.output)

/-- Only the memory size and whether instructions are traced matter to a run. -/
theorem executed_congr {limit : Nat} {o o' : Options} {p : Executable}
    (hmemory : o.memory = o'.memory) (htrace : o.trace = o'.trace) :
    executed limit o p = executed limit o' p := by
  rw [executed, executed, hmemory, htrace]

variable {cwd id : Text} {limit : Nat} {o : Options} {p : Executable} {t t₁ : FileTree}

/-- Running a program. -/
theorem yields_execute (limit : Nat) (o : Options) (p : Executable) (t : FileTree) :
    (execute limit o p : Console _ Exit).Yields t (executed limit o p).1
      (executed limit o p).2 t := by
  unfold execute executed
  cases Machine.new? o.memory with
  | none => exact .andThen (yields_complain t _) (yields_pure t _)
  | some machine =>
    dsimp only
    cases p.run o.trace limit machine with
    | none => exact yields_fail t _
    | some run =>
      dsimp only
      refine .andThen (yields_logged t run) (.quietly (yields_say t _) ?_)
      cases run.value.error with
      | some e => exact .andThen (yields_complain t _) (yields_pure t _)
      | none =>
        cases o.verbose with
        | false => exact yields_pure t _
        | true => exact .andThen (yields_complain t _) (yields_pure t _)

variable {args : List Text} {found : Option Manifest} {c : Compilation} {text data : Text}

theorem yields_readFlags {σ : Type} {flags : List (Flag σ)} {start : σ} {r : σ × List Text}
    (h : Flag.parse flags start args = .ok r) (usage : Text) (onHelp : Exit) (t : FileTree) :
    (readFlags flags usage onHelp start args : Console _ _).Yields t (.ok r) [] t := by
  rw [readFlags, h]
  exact yields_pure t r

theorem yields_settings {dir : Text} (h : Manifest.findIn t cwd dir = .ok found) :
    (settings (FileTree.host cwd id) dir).Yields t (.ok found) [] t := by
  have hfind := Manifest.find_run cwd id dir t
  rw [h] at hfind
  exact .andThen (yields_on hfind) (yields_pure t found)

variable {path u source : Text} {r : Except Exit Exit}

/-- A command with one file does with it what the options say. -/
theorem yields_runDefault (hargs : Flag.parse flags {} args = .ok (o, [path]))
    (heditor : o.editor = false) (hfound : Manifest.findIn t cwd "." = .ok found)
    (hfile : (runFile (FileTree.host cwd id) limit (o.under (found.getD (.forDir cwd)))
      path).Yields t r u t₁) : (runDefault (FileTree.host cwd id) limit args).Yields t r u t₁ := by
  refine .andThen (yields_readFlags hargs usage .ok t) ?_
  refine .andThen (yields_settings hfound) ?_
  have hdir : (FileTree.host cwd id).workingDir.run t = (cwd, t) := rfl
  refine .andThen (yields_on hdir) ?_
  refine .andThen (yields_configure t _) ?_
  rw [if_neg (by simp [heditor])]
  exact hfile

theorem yields_compileFile (hread : t.read cwd path = .ok source)
    (hc : (compile source).value = .ok c) :
    (compileFile (FileTree.host cwd id) path).Yields t (.ok (source, c)) [] t := by
  have hlogged := yields_logged t (compile source)
  rw [hc] at hlogged
  refine .andThen (yields_onFiles (FileTree.host_read_run hread)) ?_
  refine .andThen hlogged ?_
  exact .andThen (yields_note t _) (yields_pure t _)

theorem yields_assemble (h : Executable.assemble text = .ok p) (front : Text) (t : FileTree) :
    (assemble front text : Console _ _).Yields t (.ok p) [] t := by
  rw [assemble, h]
  exact .andThen (yields_note t _) (yields_pure t _)

/-- Compiling a file, unless only a part of that is asked for. -/
theorem yields_runSource (hread : t.read cwd path = .ok source)
    (hc : (compile source).value = .ok c) (hp : Executable.assemble c.assembly = .ok p)
    (hcheck : o.checkOnly = false) (htree : o.showTree = false) (hasm : o.showAsm = false)
    (hfinish : (finish (FileTree.host cwd id) limit o source p).Yields t r u t₁) :
    (runSource (FileTree.host cwd id) limit o path).Yields t r u t₁ := by
  refine .andThen (yields_compileFile hread hc) ?_
  rw [hcheck, htree, hasm]
  exact .andThen (yields_assemble hp _ t) hfinish

/-- Assembling a file. -/
theorem yields_runAssembly (hread : t.read cwd path = .ok text)
    (hp : Executable.assemble text = .ok p)
    (hfinish : (finish (FileTree.host cwd id) limit o [] p).Yields t r u t₁) :
    (runAssembly (FileTree.host cwd id) limit o path).Yields t r u t₁ := by
  refine .andThen (yields_onFiles (FileTree.host_read_run hread)) ?_
  exact .andThen (yields_assemble hp _ t) hfinish

/-- Running an image. -/
theorem yields_runImage {image : Image} {log : List LogLine} (hread : t.read cwd path = .ok data)
    (himage : Image.unmarshal data = .ok image) (hp : image.executable = ⟨.ok p, log⟩) :
    (runImage (FileTree.host cwd id) limit o path).Yields t
      (executed limit (if 0 < image.memory then { o with memory := image.memory } else o) p).1
      (executed limit (if 0 < image.memory then { o with memory := image.memory } else o) p).2
      t := by
  have hlogged := yields_logged t image.executable
  rw [hp] at hlogged
  refine .andThen (yields_on (FileTree.host_read_run hread)) ?_
  dsimp only
  rw [himage]
  dsimp only
  rw [hp]
  refine .andThen hlogged ?_
  exact .andThen (yields_note t _) (yields_execute limit _ p t)

/-- An image that cannot be read is refused. -/
theorem yields_runImage_of_error {e : ImageError} (hread : t.read cwd path = .ok data)
    (himage : Image.unmarshal data = .error e) :
    (runImage (FileTree.host cwd id) limit o path).Yields t (.error .failed) [] t := by
  refine .andThen (yields_on (FileTree.host_read_run hread)) ?_
  dsimp only
  rw [himage]
  exact yields_fail t _

theorem yields_finish_run (houtput : o.output = []) :
    (finish (FileTree.host cwd id) limit o source p).Yields t (executed limit o p).1
      (executed limit o p).2 t := by
  rw [finish, houtput]
  exact yields_execute limit o p t

/-- What is written for a program, as an image or as assembly. -/
def written (id : Text) (asImage : Bool) (p : Executable) (source : Text) (o : Options) : Text :=
  if asImage then (Image.ofExecutable p id source o.memory).marshal else p.text

/-- Writing a program leaves the tree with the file.  What is said about it depends on the options,
and is of no account here. -/
theorem yields_writeProgram {asImage : Bool}
    (hwrite : t.write cwd path (written id asImage p source o) = .ok t₁) :
    ∃ u, (writeProgram (FileTree.host cwd id) path asImage p source o).Yields t (.ok ()) u t₁ := by
  have hfile : ((FileTree.host cwd id).write path (written id asImage p source o)).run t =
      (.ok (), t₁) := FileTree.host_write_run hwrite
  have hid : (FileTree.host cwd id).freshId.run t = (id, t) := rfl
  have htell : ∃ u, (if o.verbose then say ("Wrote " ++ path ++ " (" ++
      Text.ofNat p.code.size ++ " cells)" ++ [Text.newline]) else pure () :
      Console _ Unit).Yields t₁ (.ok ()) u t₁ := by
    cases o.verbose with
    | false => exact ⟨[], yields_pure t₁ _⟩
    | true => exact ⟨_, yields_say t₁ _⟩
  obtain ⟨u, htell⟩ := htell
  refine ⟨u, ?_⟩
  unfold writeProgram
  cases asImage with
  | false =>
    exact .andThen (yields_onFiles hfile) htell
  | true =>
    refine .andThen (yields_on hid) ?_
    refine .andThen (yields_onFiles hfile) ?_
    exact .andThen (yields_note t₁ _) htell

/-- Options that name a file for the program. -/
theorem yields_finish_write (houtput : o.output ≠ [])
    (hwrite : t.write cwd o.output (written id (isImagePath o.output) p source o) = .ok t₁) :
    ∃ u, (finish (FileTree.host cwd id) limit o source p).Yields t (.ok .ok) u t₁ := by
  have hempty : ¬ o.output.isEmpty = true := by simpa using houtput
  obtain ⟨u, hprogram⟩ := yields_writeProgram hwrite
  refine ⟨u, ?_⟩
  rw [finish, if_neg hempty]
  exact .quietly hprogram (yields_pure t₁ _)

end Command

end Foolscap
