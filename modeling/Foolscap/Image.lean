import Foolscap.Image.Cbor
import Foolscap.Image.Sha256
import Foolscap.Image.Uuid
import Foolscap.Machine.Assembler

/-!
# Images

An assembled program in a file: its assembly, its code, and a hash of the assembly.  The assembly
is what counts; reading a program back assembles it again and compares.
-/

namespace Foolscap

/-- The content of an image.  The assembly lines, the code cells and the hash can be absent, which
is not the same in a file as being empty. -/
structure Image where
  version : Nat := 1
  buildId : Text := []
  source : Text := []
  lines : Option (List Text) := none
  code : Option (List Word) := none
  sourceMap : List Int := []
  memory : Int := 0
  hash : Option Text := none
  deriving Inhabited

/-- Why bytes are not an image. -/
inductive ImageError where
  | invalidMagic
  | corrupt (flaw : Cbor.Flaw)
  | versionMismatch (got : Nat)
  deriving DecidableEq, Repr

/-- Why an image does not hold a program. -/
inductive ImageFault where
  | hashMismatch
  | assembly (e : AssemblyError)
  | codeLength (got want : Nat)
  | codeDiffers (addr : Nat)
  deriving DecidableEq, Repr

namespace Image

/-- The version of the format. -/
def currentVersion : Nat := 1

/-- What every image starts with. -/
def magic : Text := "FOOL"

/-- The wording for data that cannot be an image. -/
def corruptText : Text := "corrupt image data"

end Image

namespace ImageError

/-- The wording of an error. -/
def message : ImageError → Text
  | invalidMagic => "invalid magic number: expected FOOL"
  | corrupt flaw => Image.corruptText ++ ": " ++ flaw.message
  | versionMismatch got =>
    "image version mismatch: expected " ++ Text.ofNat Image.currentVersion ++ ", got " ++
      Text.ofNat got

end ImageError

namespace ImageFault

/-- The wording of a fault. -/
def message (f : ImageFault) : Text :=
  Image.corruptText ++ ": " ++ match f with
    | hashMismatch => Text.ofString "assembly hash mismatch"
    | assembly e => e.message
    | codeLength got want =>
      "code length " ++ Text.ofNat got ++ ", assembly yields " ++ Text.ofNat want
    | codeDiffers addr => "code differs at " ++ Text.ofNat addr

end ImageFault

namespace Image

/-- A list, absent if it is empty. -/
def unlessEmpty {α : Type} : List α → Option (List α)
  | [] => none
  | as => some as

/-- The image of a program, with the text it was compiled from and the memory size to run it
with. -/
def ofExecutable (p : Executable) (buildId source : Text) (memory : Int) : Image :=
  { version := currentVersion
    buildId
    source
    lines := unlessEmpty p.lines
    code := unlessEmpty p.code.toList
    sourceMap := p.sourceMap.toList
    memory
    hash := some (Sha256.digest p.text) }

/-- The number of code cells. -/
def cells (i : Image) : Nat := (i.code.getD []).length

/-! ### Bytes -/

/-- What is written for a value, or null where there is none. -/
def orNull {α : Type} (write : α → Cbor) : Option α → Cbor
  | none => .null
  | some a => write a

/-- A list, or null where there is none. -/
def listOrNull {α : Type} (write : α → Cbor) : Option (List α) → Cbor :=
  orNull fun as => .array (as.map write)

/-- An entry of the map, unless it is left out. -/
def entry (key : Nat) (keep : Bool) (value : Cbor) : List (Cbor × Cbor) :=
  if keep then [(.unsigned key, value)] else []

/-- The image as a data item.  An empty source text, an empty source map and a memory size of 0 are
left out. -/
def toCbor (i : Image) : Cbor :=
  .map (entry 1 true (.unsigned i.version) ++
    entry 2 true (.text [i.buildId]) ++
    entry 3 (!i.source.isEmpty) (.text [i.source]) ++
    entry 4 true (listOrNull (fun l => .text [l]) i.lines) ++
    entry 5 true (listOrNull (fun w => .ofInt w.toInt) i.code) ++
    entry 6 (!i.sourceMap.isEmpty) (.array (i.sourceMap.map .ofInt)) ++
    entry 7 (i.memory ≠ 0) (.ofInt i.memory) ++
    entry 8 true (orNull (fun h => .bytes [h]) i.hash))

/-- The image as bytes. -/
def marshal (i : Image) : Text := magic ++ i.toCbor.encode

/-- A 64-bit integer. -/
def asWord : Cbor → Except Cbor.Flaw Int :=
  Cbor.integerIn "int" (-9223372036854775808) 9223372036854775807

/-- Put a value into the field with a key.  Null leaves the field as it is in an image without
anything. -/
def assign (i : Image) (key : Nat) (c : Cbor) : Except Cbor.Flaw Image :=
  match key with
  | 1 => do
    let version ← c.value 0 (Cbor.integerIn "uint32" 0 4294967295)
    return { i with version := version.toNat }
  | 2 => return { i with buildId := ← c.value [] Cbor.asText }
  | 3 => return { i with source := ← c.value [] Cbor.asText }
  | 4 => do
    let lines ← c.value none fun c => some <$> c.list "[]string" (Cbor.value [] Cbor.asText)
    return { i with lines }
  | 5 => do
    let code ← c.value none fun c => some <$> c.list "[]int" (Cbor.value 0 asWord)
    return { i with code := code.map fun ns => ns.map Int64.ofInt }
  | 6 => return { i with sourceMap := ← c.value [] (Cbor.list "[]int" (Cbor.value 0 asWord)) }
  | 7 => return { i with memory := ← c.value 0 asWord }
  | 8 => return { i with hash := ← c.value none fun c => some <$> c.asBytes }
  | _ => return i

/-- Go through keys and values in their order, with the fields that have their value.  The first
value of a field counts, and a key of no field is passed over. -/
def readPairs (i : Image) (seen : List Nat) : List (Cbor × Cbor) → Except Cbor.Flaw Image
  | [] => return i
  | (k, v) :: pairs => do
    match ← k.key? [1, 2, 3, 4, 5, 6, 7, 8] with
    | none => i.readPairs seen pairs
    | some key =>
      if key ∈ seen then i.readPairs seen pairs
      else
        let i ← (i.assign key v).mapError (.inField ("vm.Image." ++ Text.ofNat key))
        i.readPairs (key :: seen) pairs

/-- The image that a data item describes.  Null describes an image without anything. -/
def ofCbor (c : Cbor) : Except Cbor.Flaw Image :=
  c.value { version := 0 } fun
    | .map pairs => readPairs { version := 0 } [] pairs
    | .array _ =>
      .error (.mismatch 4 "vm.Image" [] "cannot decode CBOR array to struct without toarray option")
    | c => c.refuse "vm.Image"

/-- The image that bytes hold. -/
def unmarshal (data : Text) : Except ImageError Image :=
  if data.take 4 = magic then
    match Cbor.decode (data.drop 4) >>= ofCbor with
    | .error flaw => .error (.corrupt flaw)
    | .ok i => if i.version = currentVersion then .ok i else .error (.versionMismatch i.version)
  else .error .invalidMagic

/-! ### Programs -/

/-- The first address at which two lists of cells differ. -/
def differsAt : Nat → List Word → List Word → Option Nat
  | a, v :: vs, w :: ws => if v = w then differsAt (a + 1) vs ws else some a
  | _, _, _ => none

/-- The assembly of an image as one text. -/
def text (i : Image) : Text := Text.unlines (i.lines.getD [])

/-- Compare a program with the code of an image. -/
def confirm (i : Image) (p : Executable) : Except ImageFault Executable :=
  let code := i.code.getD []
  if p.code.size ≠ code.length then .error (.codeLength code.length p.code.size)
  else match differsAt 0 p.code.toList code with
    | some addr => .error (.codeDiffers addr)
    | none => .ok p

/-- The program in an image: its assembly, assembled again and found to be what it was. -/
def executable (i : Image) : Logged (Except ImageFault Executable) :=
  if Sha256.digest i.text ≠ i.hash.getD [] then ⟨.error .hashMismatch, []⟩
  else match Executable.assemble i.text with
    | .error e => ⟨.error (.assembly e), []⟩
    | .ok p => ⟨i.confirm p, [p.assembledLog]⟩

end Image

end Foolscap
