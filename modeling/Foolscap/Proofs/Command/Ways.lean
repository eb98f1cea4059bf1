import Foolscap.Proofs.Command.Steps
import Foolscap.Proofs.Image.Stored
import Foolscap.Proofs.Program.Correctness

/-!
# Ways to run a program

A program can be run from its source text, from its assembly in a file, or from its image in a file.
The assembly always gives the same program.  The image does so exactly if the source text is
well-formed UTF-8 and neither assembly nor code is too long; otherwise it is written, but cannot be
read any more, and which of the two it is that fails is told.
-/

namespace Foolscap

open Manifest Text Foolscap.Flag

/-- The assembly of a source text is assembled, to a program that consists of ASCII lines. -/
theorem exists_executable {source : Text} {c : Compilation} (hsource : source.length < Word.limit)
    (hc : (compile source).value = .ok c) :
    ∃ p, Executable.assemble c.assembly = .ok p ∧ p.text = c.assembly ∧ p.Measured ∧
      ∀ l ∈ p.lines, l.isUtf8 := by
  obtain ⟨program, hparse, haccepted, hcode⟩ := accepted_of_compile hc
  have hlinkable : Line.Linkable c.code.lines := by
    rw [hcode]
    exact haccepted.linkable (Nat.lt_of_le_of_lt (Program.weight_le_of_parse hparse) hsource)
  obtain ⟨p, hp, -⟩ := Line.assemble_textOf hlinkable
  obtain ⟨hlines, hmeasured⟩ := Executable.ofLines_measured hp
  rw [Line.split_textOf] at hlines
  refine ⟨p, hp, ?_, hmeasured, ?_⟩
  · rw [Executable.text, hlines, Compilation.assembly, Line.textOf]
  · rw [hlines]
    intro l hl
    obtain ⟨x, -, rfl⟩ := List.mem_map.mp hl
    exact isUtf8_of_ascii x.lt_of_mem_text

namespace Command

/-- A command that runs a source file on a file tree.  Its flags choose the memory size and what is
told about the run, nothing else, and the settings can be read. -/
structure Call (source : Text) where
  tree : FileTree
  cwd : Text
  id : Text
  limit : Nat
  flags : List Text
  file : Text
  verbose : Bool
  trace : Bool
  memory : Int
  found : Option Manifest
  flags_parse : Flag.parse Command.flags {} flags = .ok ({ verbose, trace, memory }, [])
  flags_open : ∀ arg ∈ flags, Argument.read arg ≠ .stop
  file_plain : Argument.read file = .plain
  file_ne : file ≠ Text.ofString "build"
  file_read : tree.read cwd file = .ok source
  id_random : Uuid.isRandom id
  settings_found : ((Manifest.find (FileTree.host cwd id) ".").run tree).1 = .ok found
  memory_fits : Text.fitsWord (if memory ≤ 0 then (found.getD (.forDir cwd)).memory else memory)

namespace Call

variable {source : Text} (k : Call source)

/-- How a command with arguments ends on a file tree, and what it puts out. -/
def outcome (args : List Text) (t : FileTree) : Exit × Text :=
  let ((exit, transcript), _) := (run (FileTree.host k.cwd k.id) k.limit args).run t
  (exit, transcript.out)

/-- The files that a command with arguments leaves behind. -/
def leaves (args : List Text) (t : FileTree) : FileTree :=
  ((run (FileTree.host k.cwd k.id) k.limit args).run t).2

/-- The arguments that run the source file. -/
def toRun : List Text := k.flags ++ [k.file]

/-- The arguments that write the program to a file. -/
def toWrite (out : Text) : List Text := k.flags ++ [Text.ofString "-o", out, k.file]

/-- The arguments that run a file of assembly. -/
def toRunAssembly (out : Text) : List Text := k.flags ++ [Text.ofString "-asm", out]

/-- The arguments that run an image. -/
def toRunImage (out : Text) : List Text := k.flags ++ [Text.ofString "-image", out]

/-- A path with an ending can be named as an argument, and a file can be written there. -/
structure CanWrite (ending out : Text) : Prop where
  ending : ending <:+ out
  plain : Argument.read out = .plain
  writable : k.tree.IsWritable k.cwd out

/-- The options that the flags make. -/
def options : Options := { verbose := k.verbose, trace := k.trace, memory := k.memory }

/-- The settings that are found, or those for the current directory. -/
def manifest : Manifest := k.found.getD (.forDir k.cwd)

/-- How running a program ends under the options and settings, and what it puts out. -/
def ran (p : Executable) : Exit × Text :=
  let (r, out) := executed k.limit (k.options.under k.manifest) p
  (Console.exitOf r, out)

/-- The memory size of the call. -/
def size : Int := if k.memory ≤ 0 then k.manifest.memory else k.memory

theorem findIn_tree : findIn k.tree k.cwd "." = .ok k.found := by
  have h := k.settings_found
  rw [find_run] at h
  exact h

/-- The flags in front of further arguments. -/
theorem parse_flags (rest : List Text) :
    parse Command.flags {} (k.flags ++ rest) = parse Command.flags k.options rest :=
  parse_append k.flags_parse k.flags_open rest

/-- The flags do not ask for a build. -/
theorem run_flags {word : Text} (hword : word ≠ ofString "build") (rest : List Text) :
    run (FileTree.host k.cwd k.id) k.limit (k.flags ++ word :: rest) =
      Console.run (runDefault (FileTree.host k.cwd k.id) k.limit (k.flags ++ word :: rest)) := by
  have hparse := k.flags_parse
  cases hflags : k.flags with
  | nil => simp [run, hword]
  | cons arg args =>
    rw [hflags] at hparse
    -- A first argument that is no flag would have been left over.
    have harg : arg ≠ ofString "build" := by
      rintro rfl
      have hleft : parse Command.flags {} (ofString "build" :: args) =
          .ok ({}, ofString "build" :: args) := rfl
      rw [hleft] at hparse
      exact absurd (Prod.mk.inj (Except.ok.inj hparse)).2 (List.cons_ne_nil _ _)
    simp [run, harg]

variable {k}

variable {t : FileTree} {c : Compilation} {p : Executable} {out ending : Text}

/-- After the flags come further arguments, which name one file. -/
theorem outcome_flags {word path : Text} {rest : List Text} {o : Options} {t₁ : FileTree}
    {r : Except Exit Exit} {u : Text} (hword : word ≠ ofString "build")
    (hrest : parse Command.flags k.options (word :: rest) = .ok (o, [path]))
    (heditor : o.editor = false) (hfound : findIn t k.cwd "." = .ok k.found)
    (hfile : (runFile (FileTree.host k.cwd k.id) k.limit (o.under k.manifest) path).Yields
      t r u t₁) :
    k.outcome (k.flags ++ word :: rest) t = (Console.exitOf r, u) ∧
      k.leaves (k.flags ++ word :: rest) t = t₁ := by
  have hyields := yields_runDefault ((k.parse_flags _).trans hrest) heditor hfound hfile
  obtain ⟨s, hout, hexec⟩ := hyields.run
  rw [outcome, leaves, k.run_flags hword, hexec, ← hout]
  exact ⟨rfl, rfl⟩

/-- Running the source file. -/
theorem outcome_toRun (hc : (compile source).value = .ok c)
    (hp : Executable.assemble c.assembly = .ok p) : k.outcome k.toRun k.tree = k.ran p := by
  have hrest : parse Command.flags k.options [k.file] = .ok (k.options, [k.file]) := by
    rw [parse, k.file_plain]
  have hfile : (runFile (FileTree.host k.cwd k.id) k.limit (k.options.under k.manifest)
      k.file).Yields k.tree _ _ k.tree :=
    yields_runSource k.file_read hc hp rfl rfl rfl (yields_finish_run rfl)
  exact (outcome_flags k.file_ne hrest rfl k.findIn_tree hfile).1

/-- Writing the program to a file. -/
theorem outcome_toWrite (hc : (compile source).value = .ok c)
    (hp : Executable.assemble c.assembly = .ok p) {t₁ : FileTree} (hout : out ≠ [])
    (hwrite : k.tree.write k.cwd out
      (written k.id (isImagePath out) p source (k.options.under k.manifest)) = .ok t₁) :
    (k.outcome (k.toWrite out) k.tree).1 = .ok ∧ k.leaves (k.toWrite out) k.tree = t₁ := by
  have hrest : parse Command.flags k.options [ofString "-o", out, k.file] =
      .ok ({ k.options with output := out }, [k.file]) := by
    have hout : parse Command.flags k.options [ofString "-o", out, k.file] =
        parse Command.flags { k.options with output := out } [k.file] := rfl
    rw [hout, parse, k.file_plain]
  obtain ⟨u, hfinish⟩ : ∃ u, (finish (FileTree.host k.cwd k.id) k.limit
      { k.options.under k.manifest with output := out } source p).Yields k.tree (.ok .ok) u t₁ :=
    yields_finish_write hout hwrite
  have hfile := yields_runSource k.file_read hc hp rfl rfl rfl hfinish
  obtain ⟨houtcome, hleaves⟩ := outcome_flags (by decide) hrest rfl k.findIn_tree hfile
  exact ⟨congrArg Prod.fst houtcome, hleaves⟩

section

variable (hplain : Argument.read out = .plain)

include hplain

/-- Running a file of assembly. -/
theorem outcome_toRunAssembly {text : Text} (hread : t.read k.cwd out = .ok text)
    (hp : Executable.assemble text = .ok p) (hfound : findIn t k.cwd "." = .ok k.found) :
    k.outcome (k.toRunAssembly out) t = k.ran p := by
  have hrest : parse Command.flags k.options [ofString "-asm", out] =
      .ok ({ k.options with asmInput := true }, [out]) := by
    have hasm : parse Command.flags k.options [ofString "-asm", out] =
        parse Command.flags { k.options with asmInput := true } [out] := rfl
    rw [hasm, parse, hplain]
  have hfile : (runFile (FileTree.host k.cwd k.id) k.limit
      { k.options.under k.manifest with asmInput := true } out).Yields t _ _ t :=
    yields_runAssembly hread hp (yields_finish_run rfl)
  exact (outcome_flags (by decide) hrest rfl hfound hfile).1

theorem parse_toRunImage :
    parse Command.flags k.options [ofString "-image", out] =
      .ok ({ k.options with imageInput := true }, [out]) := by
  have himage : parse Command.flags k.options [ofString "-image", out] =
      parse Command.flags { k.options with imageInput := true } [out] := rfl
  rw [himage, parse, hplain]

/-- Running an image with the memory size of the call. -/
theorem outcome_toRunImage {data : Text} {image : Image} {log : List LogLine}
    (hread : t.read k.cwd out = .ok data) (himage : Image.unmarshal data = .ok image)
    (hmemory : image.memory = (k.options.under k.manifest).memory)
    (hp : image.executable = ⟨.ok p, log⟩) (hfound : findIn t k.cwd "." = .ok k.found) :
    k.outcome (k.toRunImage out) t = k.ran p := by
  have hfile : (runFile (FileTree.host k.cwd k.id) k.limit
      { k.options.under k.manifest with imageInput := true } out).Yields t _ _ t :=
    yields_runImage hread himage hp
  -- Whichever memory size counts, that of the image or that of the call, it is the same one.
  have hsame : executed k.limit (if 0 < image.memory then
      { { k.options.under k.manifest with imageInput := true } with memory := image.memory }
      else { k.options.under k.manifest with imageInput := true }) p =
      executed k.limit (k.options.under k.manifest) p := by
    split
    · exact executed_congr hmemory rfl
    · exact executed_congr rfl rfl
  rw [hsame] at hfile
  exact (outcome_flags (by decide) (parse_toRunImage hplain) rfl hfound hfile).1

/-- Running what is no image. -/
theorem outcome_toRunImage_of_error {data : Text} {e : ImageError}
    (hread : t.read k.cwd out = .ok data) (himage : Image.unmarshal data = .error e)
    (hfound : findIn t k.cwd "." = .ok k.found) :
    k.outcome (k.toRunImage out) t = (.failed, []) := by
  have hfile : (runFile (FileTree.host k.cwd k.id) k.limit
      { k.options.under k.manifest with imageInput := true } out).Yields t _ _ t :=
    yields_runImage_of_error hread himage
  exact (outcome_flags (by decide) (parse_toRunImage hplain) rfl hfound hfile).1

end

theorem CanWrite.ne_nil (h : k.CanWrite ending out) (hending : ending ≠ []) : out ≠ [] := by
  rintro rfl
  exact hending (List.suffix_nil.mp h.ending)

theorem fileName_isName : Path.IsName fileName := ⟨by decide, by decide, by decide⟩

/-- The endings of assembly and images are not those of other names that matter. -/
theorem not_suffix_of_mem (h : ending ∈ [ofString ".asm", imageSuffix]) :
    Path.slash ∉ ending ∧ ∀ name ∈ [[], Path.dot, Path.dotDot, fileName],
      ¬ ending <:+ name := by
  revert ending
  decide

/-- A file that is written can be read, and the settings are still found. -/
theorem CanWrite.written (h : k.CanWrite ending out)
    (hending : ending ∈ [ofString ".asm", imageSuffix]) (data : Text) :
    ∃ t₁, k.tree.write k.cwd out data = .ok t₁ ∧ t₁.read k.cwd out = .ok data ∧
      findIn t₁ k.cwd "." = .ok k.found := by
  obtain ⟨hslash, hother⟩ := not_suffix_of_mem hending
  have hlast := Path.suffix_lastPart hslash h.ending
  have hne : ∀ name ∈ [[], Path.dot, Path.dotDot, fileName], Path.lastPart out ≠ name := by
    intro name hname heq
    exact hother name hname (heq ▸ hlast)
  have hname : Path.IsName (Path.lastPart out) :=
    ⟨hne [] (by simp), hne Path.dot (by simp), hne Path.dotDot (by simp)⟩
  obtain ⟨t₁, hwrite, hread, hseen⟩ := FileTree.write_spec h.writable hname data
  refine ⟨t₁, hwrite, hread, ?_⟩
  -- Settings are looked for under their own name only, and the file has another one.
  rw [← k.findIn_tree]
  apply findIn_congr
  intro dir
  have hfile : Path.lastPart (Path.join dir fileName) = fileName :=
    Path.lastPart_join (by decide) fileName_isName dir
  apply hseen
  · rw [hfile]
    exact fileName_isName
  · rw [hfile]
    exact (hne fileName (by simp)).symm

theorem not_isImagePath (h : ofString ".asm" <:+ out) : isImagePath out = false := by
  rw [isImagePath, Bool.eq_false_iff, ne_eq, List.isSuffixOf_iff_suffix]
  intro himage
  have hshort := List.suffix_of_suffix_length_le h himage (by decide)
  revert hshort
  decide

/-- Writing the assembly and running it is running the source file. -/
theorem assembly_agrees (hc : (compile source).value = .ok c)
    (hp : Executable.assemble c.assembly = .ok p) (h : k.CanWrite (ofString ".asm") out) :
    (k.outcome (k.toWrite out) k.tree).1 = .ok ∧
      (k.leaves (k.toWrite out) k.tree).read k.cwd out = .ok p.text ∧
      k.outcome (k.toRunAssembly out) (k.leaves (k.toWrite out) k.tree) =
        k.outcome k.toRun k.tree := by
  obtain ⟨t₁, hwrite, hread, hfound⟩ := h.written (by simp) p.text
  have hdata : Command.written k.id (isImagePath out) p source (k.options.under k.manifest) =
      p.text := by
    rw [Command.written, not_isImagePath h.ending]
    rfl
  obtain ⟨hexit, hleaves⟩ := outcome_toWrite hc hp (h.ne_nil (by decide)) (hdata.symm ▸ hwrite)
  refine ⟨hexit, hleaves ▸ hread, ?_⟩
  rw [hleaves, outcome_toRun hc hp]
  exact outcome_toRunAssembly h.plain hread (Executable.assemble_text hp) hfound

/-- Writing the image and running it is running the source file, if the image can be read. -/
theorem image_agrees (hc : (compile source).value = .ok c)
    (hp : Executable.assemble c.assembly = .ok p)
    (himage : Image.unmarshal (Image.ofExecutable p k.id source k.size).marshal =
      if p.isStorable source then .ok (Image.ofExecutable p k.id source k.size)
      else .error (.corrupt p.storageFlaw)) (h : k.CanWrite imageSuffix out) :
    (k.outcome (k.toWrite out) k.tree).1 = .ok ∧
      (k.leaves (k.toWrite out) k.tree).read k.cwd out =
        .ok (Image.ofExecutable p k.id source k.size).marshal ∧
      k.outcome (k.toRunImage out) (k.leaves (k.toWrite out) k.tree) =
        if p.isStorable source then k.outcome k.toRun k.tree else (.failed, []) := by
  obtain ⟨t₁, hwrite, hread, hfound⟩ := h.written (by simp)
    (Image.ofExecutable p k.id source k.size).marshal
  have hdata : Command.written k.id (isImagePath out) p source (k.options.under k.manifest) =
      (Image.ofExecutable p k.id source k.size).marshal := by
    rw [Command.written, isImagePath, List.isSuffixOf_iff_suffix.mpr h.ending]
    rfl
  obtain ⟨hexit, hleaves⟩ := outcome_toWrite hc hp (h.ne_nil (by decide)) (hdata.symm ▸ hwrite)
  refine ⟨hexit, hleaves ▸ hread, ?_⟩
  rw [hleaves]
  split
  · next hstorable =>
    rw [if_pos hstorable] at himage
    rw [outcome_toRun hc hp]
    exact outcome_toRunImage h.plain hread himage rfl
      (Image.executable_ofExecutable (Executable.assemble_text hp)) hfound
  · next hstorable =>
    rw [if_neg hstorable] at himage
    exact outcome_toRunImage_of_error h.plain hread himage hfound

end Call

end Command

/-- **The ways to run a program agree.**  The program of a source text is assembled again from its
text.  Its image holds the program and the memory size, and it is read as it was written if the
source text is well-formed UTF-8 and the lists are short enough; if not, it is written all the same
but found corrupt, for that reason.  So a call that runs the source file ends like one that first
writes the assembly and then runs that file, with the same output, and like one that first writes
the image and then runs it, as far as that image can be read. -/
theorem ways_agree {source : Text} {c : Compilation} (hsource : source.length < Word.limit)
    (hc : (compile source).value = .ok c) (hsize : c.assembly.length < Word.limit) :
    ∃ p, Executable.assemble c.assembly = .ok p ∧ Executable.assemble p.text = .ok p ∧
      (∀ id memory, Uuid.isRandom id → Text.fitsWord memory →
        Image.unmarshal (Image.ofExecutable p id source memory).marshal =
          (if p.isStorable source then .ok (Image.ofExecutable p id source memory)
            else .error (.corrupt p.storageFlaw)) ∧
        (Image.ofExecutable p id source memory).memory = memory ∧
        (Image.ofExecutable p id source memory).executable.value = .ok p) ∧
      ∀ k : Command.Call source,
        (∀ out, k.CanWrite (Text.ofString ".asm") out →
          (k.outcome (k.toWrite out) k.tree).1 = .ok ∧
          (k.leaves (k.toWrite out) k.tree).read k.cwd out = .ok p.text ∧
          k.outcome (k.toRunAssembly out) (k.leaves (k.toWrite out) k.tree) =
            k.outcome k.toRun k.tree) ∧
        ∀ out, k.CanWrite Command.imageSuffix out →
          (k.outcome (k.toWrite out) k.tree).1 = .ok ∧
          (k.leaves (k.toWrite out) k.tree).read k.cwd out =
            .ok (Image.ofExecutable p k.id source k.size).marshal ∧
          k.outcome (k.toRunImage out) (k.leaves (k.toWrite out) k.tree) =
            if p.isStorable source then k.outcome k.toRun k.tree else (.failed, []) := by
  obtain ⟨p, hp, htext, hmeasured, hlines⟩ := exists_executable hsource hc
  have hagain := Executable.assemble_text hp
  have himage : ∀ id memory, Uuid.isRandom id → Text.fitsWord memory →
      Image.unmarshal (Image.ofExecutable p id source memory).marshal =
        if p.isStorable source then .ok (Image.ofExecutable p id source memory)
        else .error (.corrupt p.storageFlaw) :=
    fun id memory hid hmemory => Image.unmarshal_ofExecutable hmeasured (htext ▸ hsize) hlines hid
      hsource hmemory
  refine ⟨p, hp, hagain, fun id memory hid hmemory => ?_, fun k => ⟨fun out hout => ?_,
    fun out hout => ?_⟩⟩
  · exact ⟨himage id memory hid hmemory, rfl, by rw [Image.executable_ofExecutable hagain]⟩
  · exact Command.Call.assembly_agrees hc hp hout
  · exact Command.Call.image_agrees hc hp (himage k.id k.size k.id_random k.memory_fits) hout

/-- A call on a source file that is alone in the root, with a memory of 64 cells. -/
def lonelyCall (source : Text) : Command.Call source where
  tree := [([Text.ofString "p.fool"], .file source)]
  cwd := "/"
  id := "6ba7b810-9dad-41d1-80b4-00c04fd430c8"
  limit := 100
  flags := [Text.ofString "-mem=64"]
  file := "p.fool"
  verbose := false
  trace := false
  memory := 64
  found := none
  flags_parse := by decide +kernel
  flags_open := by decide +kernel
  file_plain := by decide +kernel
  file_ne := by decide +kernel
  file_read := rfl
  id_random := by decide +kernel
  settings_found := rfl
  memory_fits := by decide

/-- Files can be written beside the source file. -/
theorem canWrite_beside (source : Text) :
    (lonelyCall source).CanWrite (ofString ".asm") (ofString "p.asm") ∧
      (lonelyCall source).CanWrite Command.imageSuffix (ofString "p.fimg") :=
  ⟨⟨by decide, by decide, _, rfl⟩, ⟨by decide, by decide, _, rfl⟩⟩

/-- A program with a comment that is not ASCII. -/
def accentedSource : Text := "print(6 * 7); // für alle"

/-- A comment may have any characters: all three ways put out the same number. -/
theorem ways_agree_accented :
    ∃ c, (compile accentedSource).value = .ok c ∧ c.assembly.length < Word.limit ∧
      let k := lonelyCall accentedSource
      k.outcome k.toRun k.tree = (Exit.ok, Text.ofString "42\n") ∧
      k.outcome (k.toRunAssembly (Text.ofString "p.asm"))
        (k.leaves (k.toWrite (Text.ofString "p.asm")) k.tree) = (Exit.ok, Text.ofString "42\n") ∧
      k.outcome (k.toRunImage (Text.ofString "p.fimg"))
        (k.leaves (k.toWrite (Text.ofString "p.fimg")) k.tree) =
          (Exit.ok, Text.ofString "42\n") := by
  obtain ⟨c, hc, hsmall⟩ := exists_ok_of_any (x := (compile accentedSource).value)
    (q := fun c => c.assembly.length < Word.limit && (Executable.assemble c.assembly).toOption.any
      fun p => p.isStorable accentedSource) (by decide +kernel)
  simp only [Bool.and_eq_true, decide_eq_true_eq] at hsmall
  obtain ⟨p, hp, -, -, hcalls⟩ := ways_agree (by decide +kernel) hc hsmall.1
  obtain ⟨q, hq, hstorable⟩ := exists_ok_of_any hsmall.2
  obtain rfl : p = q := Except.ok.inj (hp.symm.trans hq)
  have hrun : (lonelyCall accentedSource).outcome (lonelyCall accentedSource).toRun
      (lonelyCall accentedSource).tree = (Exit.ok, Text.ofString "42\n") := by
    decide +kernel
  obtain ⟨hasm, himage⟩ := hcalls (lonelyCall accentedSource)
  obtain ⟨hcanAsm, hcanImage⟩ := canWrite_beside accentedSource
  refine ⟨c, hc, hsmall.1, hrun, ?_, ?_⟩
  · exact (hasm _ hcanAsm).2.2.trans hrun
  · rw [(himage _ hcanImage).2.2, if_pos hstorable]
    exact hrun

/-- A program with a byte in a comment that is no UTF-8. -/
def strayByteSource : Text := "print(1); // " ++ [255, Text.newline]

/-- Such a program is compiled and runs, but its image cannot be read once it is written, since the
source text in it is no UTF-8. -/
theorem image_of_stray_byte_corrupt :
    (∃ c p, (compile strayByteSource).value = .ok c ∧ Executable.assemble c.assembly = .ok p ∧
      ∀ id memory, Uuid.isRandom id → Text.fitsWord memory →
        Image.unmarshal (Image.ofExecutable p id strayByteSource memory).marshal =
          .error (.corrupt .notUtf8)) ∧
    (ImageError.corrupt .notUtf8).message =
      Text.ofString "corrupt image data: cbor: invalid UTF-8 string" ∧
    let k := lonelyCall strayByteSource
    k.outcome k.toRun k.tree = (Exit.ok, Text.ofString "1\n") ∧
      (k.outcome (k.toWrite (Text.ofString "p.fimg")) k.tree).1 = .ok ∧
      k.outcome (k.toRunImage (Text.ofString "p.fimg"))
        (k.leaves (k.toWrite (Text.ofString "p.fimg")) k.tree) = (.failed, []) := by
  obtain ⟨c, hc, hsmall⟩ := exists_ok_of_any (x := (compile strayByteSource).value)
    (q := fun c => c.assembly.length ≤ Cbor.maxCount) (by decide +kernel)
  have hlength : strayByteSource.length < Word.limit := by decide +kernel
  obtain ⟨p, hp, htext, hmeasured, hlines⟩ := exists_executable hlength hc
  rw [decide_eq_true_eq, ← htext] at hsmall
  have hunstorable : ¬ p.isStorable strayByteSource = true := by
    have hutf8 : strayByteSource.isUtf8 = false := by decide +kernel
    simp [Executable.isStorable, hutf8]
  have hflaw : p.storageFlaw = .notUtf8 :=
    if_pos ⟨Nat.le_trans (Text.length_unlines_ge p.lines) hsmall,
      Nat.le_trans hmeasured.code hsmall⟩
  have hread : ∀ id memory, Uuid.isRandom id → Text.fitsWord memory →
      Image.unmarshal (Image.ofExecutable p id strayByteSource memory).marshal =
        if p.isStorable strayByteSource then .ok (Image.ofExecutable p id strayByteSource memory)
        else .error (.corrupt p.storageFlaw) :=
    fun id memory hid hmemory => Image.unmarshal_ofExecutable hmeasured
      (Nat.lt_of_le_of_lt hsmall (by decide)) hlines hid hlength hmemory
  have hagrees := Command.Call.image_agrees hc hp
    (hread _ _ (lonelyCall strayByteSource).id_random (lonelyCall strayByteSource).memory_fits)
    (canWrite_beside strayByteSource).2
  rw [if_neg hunstorable] at hagrees
  refine ⟨⟨c, p, hc, hp, fun id memory hid hmemory => ?_⟩, by decide +kernel, ?_, hagrees.1,
    hagrees.2.2⟩
  · rw [hread id memory hid hmemory, if_neg hunstorable, hflaw]
  · decide +kernel

end Foolscap
