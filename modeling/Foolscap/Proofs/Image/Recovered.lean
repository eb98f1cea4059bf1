import Foolscap.Proofs.Assembly.Format
import Foolscap.Proofs.Image.Stored

/-!
# Programs recovered from images

The assembly in an image is what counts.  A program is recovered from its own text, hence from its
image; and what is recovered from any image is what its assembly says, never what the image says
next to it.

## Design Notes

Nothing is assumed of the hash: two texts may have the same one.  So a hash that fits does not say
that the assembly is the one the image was made with, and the code is compared as well.
-/

namespace Foolscap

/-! ### Texts of lines -/

namespace Text

theorem unlines_eq_join {ls : List Text} (h : ls ≠ []) :
    unlines ls = join [newline] ls ++ [newline] := by
  induction ls with
  | nil => exact absurd rfl h
  | cons t ts ih =>
    cases ts with
    | nil => simp [unlines, join]
    | cons u us =>
      have hcons : unlines (t :: u :: us) = t ++ [newline] ++ unlines (u :: us) := rfl
      rw [hcons, ih (by simp)]
      simp [join]

theorem unlines_lines (t : Text) : unlines (lines t) = t ++ [newline] := by
  rw [lines, unlines_eq_join (splitAt_ne_nil newline t), join_splitAt]

end Text

/-- The lines of an assembly text make up the text, ended by a line end if it is not empty. -/
theorem Assembler.unlines_split (t : Text) :
    Text.unlines (split t) =
      if t = [] ∨ t.getLast? = some Text.newline then t else t ++ [Text.newline] := by
  by_cases hnil : t = []
  · subst hnil
    rfl
  · rw [split]
    · split
      · next hlast =>
        rw [Text.unlines_lines, if_pos (.inr hlast)]
        exact List.dropLast_append_getLast? _ hlast
      · next hlast =>
        rw [Text.unlines_lines, if_neg]
        exact not_or_intro hnil hlast
    · exact hnil

namespace Image

/-! ### Any hash -/

/-- The image of a program, with a hash made by some function. -/
def ofExecutableBy (digest : Text → Text) (p : Executable) (buildId source : Text) (memory : Int) :
    Image :=
  { ofExecutable p buildId source memory with hash := some (digest p.text) }

/-- The program in an image whose hash was made by some function. -/
def executableBy (digest : Text → Text) (i : Image) : Logged (Except ImageFault Executable) :=
  if digest i.text ≠ i.hash.getD [] then ⟨.error .hashMismatch, []⟩
  else match Executable.assemble i.text with
    | .error e => ⟨.error (.assembly e), []⟩
    | .ok p => ⟨i.confirm p, [p.assembledLog]⟩

theorem eq_of_differsAt {a : Nat} {vs ws : List Word} (hlength : vs.length = ws.length)
    (h : differsAt a vs ws = none) : vs = ws := by
  induction vs generalizing a ws with
  | nil => exact (List.length_eq_zero_iff.mp hlength.symm).symm
  | cons v vs ih =>
    cases ws with
    | nil => cases hlength
    | cons w ws =>
      rw [differsAt] at h
      split at h
      · next heq => rw [heq, ih (Nat.succ.inj hlength) h]
      · cases h

/-- A program is confirmed by an image if their code is the same. -/
theorem confirm_eq_ok_iff {i : Image} {p q : Executable} :
    i.confirm p = .ok q ↔ p = q ∧ p.code.toList = i.code.getD [] := by
  unfold confirm
  dsimp only
  constructor
  · intro h
    split at h
    · cases h
    next hsize =>
    have hlength : p.code.toList.length = (i.code.getD []).length := by simpa using hsize
    split at h
    · cases h
    · next hsame => exact ⟨Except.ok.inj h, eq_of_differsAt hlength hsame⟩
  · rintro ⟨rfl, hcode⟩
    have hsize : ¬ p.code.size ≠ (i.code.getD []).length := by
      rw [← hcode, Array.length_toList]
      exact not_not_intro rfl
    rw [if_neg hsize, ← hcode, differsAt_self]

/-- What is recovered from an image: the program of its assembly, if hash and code are right. -/
theorem executableBy_eq_ok_iff {digest : Text → Text} {i : Image} {p : Executable} :
    (i.executableBy digest).value = .ok p ↔
      digest i.text = i.hash.getD [] ∧ Executable.assemble i.text = .ok p ∧
        p.code.toList = i.code.getD [] := by
  unfold executableBy
  by_cases hhash : digest i.text = i.hash.getD []
  · rw [if_neg (not_not_intro hhash)]
    cases hasm : Executable.assemble i.text with
    | error e => simp
    | ok q =>
      simp only [hhash, confirm_eq_ok_iff, true_and, Except.ok.injEq]
      constructor
      · rintro ⟨rfl, hcode⟩
        exact ⟨rfl, hcode⟩
      · rintro ⟨rfl, hcode⟩
        exact ⟨rfl, hcode⟩
  · rw [if_pos hhash]
    simp [hhash]

theorem text_ofExecutableBy (digest : Text → Text) (p : Executable) (id source : Text)
    (memory : Int) : (ofExecutableBy digest p id source memory).text = p.text := by
  rw [text, ofExecutableBy, ofExecutable, getD_unlessEmpty, Executable.text]

/-- Whatever makes the hash, a program is recovered from its text and from its image.  From any
image, the program of its assembly is recovered, if anything is; the source map of the image does
not count. -/
theorem assembly_is_faithful (digest : Text → Text) :
    (ofExecutableBy Sha256.digest = ofExecutable ∧ executableBy Sha256.digest = executable) ∧
      (∀ t p, Executable.assemble t = .ok p →
        p.text = (if t = [] ∨ t.getLast? = some Text.newline then t else t ++ [Text.newline]) ∧
        Executable.assemble p.text = .ok p ∧
        ∀ id source memory,
          ((ofExecutableBy digest p id source memory).executableBy digest).value = .ok p) ∧
      (∀ (i : Image) p, (i.executableBy digest).value = .ok p ↔
        digest i.text = i.hash.getD [] ∧ Executable.assemble i.text = .ok p ∧
          p.code.toList = i.code.getD []) ∧
      ∀ (i : Image) m, { i with sourceMap := m }.executableBy digest = i.executableBy digest := by
  refine ⟨⟨rfl, rfl⟩, fun t p h => ⟨?_, Executable.assemble_text h, fun id source memory => ?_⟩,
    fun i p => executableBy_eq_ok_iff, fun i m => rfl⟩
  · rw [Executable.text, (Executable.ofLines_measured h).1, Assembler.unlines_split]
  · refine executableBy_eq_ok_iff.mpr ⟨?_, ?_, ?_⟩
    · rw [text_ofExecutableBy]
      rfl
    · rw [text_ofExecutableBy]
      exact Executable.assemble_text h
    · rw [ofExecutableBy, ofExecutable, getD_unlessEmpty]

/-- A text with blank lines and no line end at its end, and the empty text, recovered from images
with the true hash and with one that is the same for all texts. -/
theorem assembly_is_faithful_blank_lines :
    (∃ p, Executable.assemble "\n\npush a\n\na:\n " = .ok p ∧ p.code = #[1, 2] ∧
      p.text = "\n\npush a\n\na:\n \n" ∧ Executable.assemble p.text = .ok p ∧
      (ofExecutable p "id" "" 0).executable.value = .ok p) ∧
    ∃ p, Executable.assemble [] = .ok p ∧ p.text = [] ∧
      ((ofExecutableBy (fun _ => []) p "id" "" 0).executableBy fun _ => []).value = .ok p := by
  have hasm := @Executable.ofLines_of_ok (Assembler.split "\n\npush a\n\na:\n ")
    ⟨#[(3, .number 1), (3, .label "a")], [("a", 2)]⟩ rfl
  have hempty := @Executable.ofLines_of_ok (Assembler.split []) {} rfl
  obtain ⟨-, hown, -⟩ := assembly_is_faithful Sha256.digest
  obtain ⟨-, hany, -⟩ := assembly_is_faithful fun _ => []
  obtain ⟨htext, hagain, himage⟩ := hown "\n\npush a\n\na:\n " _ hasm
  obtain ⟨htext', -, himage'⟩ := hany [] _ hempty
  exact ⟨⟨_, hasm, rfl, htext, hagain, himage _ _ _⟩, _, hempty, htext', himage' _ _ _⟩

end Image

end Foolscap
