import Foolscap.Files
import Foolscap.Manifest.Load
import Foolscap.Proofs.Text.Plain

/-!
# Written files

Writing a file changes what its own path leads to, and nothing for paths whose last part is another
name.  In particular a file with another name does not change the settings that are found.
-/

namespace Foolscap

open List Foolscap.Path

/-! ### Paths -/

theorem Text.splitAt_append_cons (b : UInt8) (s t : Text) :
    splitAt b (s ++ b :: t) = splitAt b s ++ splitAt b t := by
  induction s with
  | nil => simp [splitAt]
  | cons c s ih =>
    rw [cons_append, splitAt, splitAt, ih]
    split
    · rfl
    · cases hs : splitAt b s with
      | nil => exact absurd hs (splitAt_ne_nil b s)
      | cons u us => rfl

namespace Path

/-- The last part of a path. -/
def lastPart (p : Text) : Text := (Text.splitAt slash p).getLast (Text.splitAt_ne_nil slash p)

/-- A part that leads to a place of its own. -/
structure IsName (part : Text) : Prop where
  ne_nil : part ≠ []
  ne_dot : part ≠ dot
  ne_dotDot : part ≠ dotDot

theorem getLast?_splitAt (p : Text) : (Text.splitAt slash p).getLast? = some (lastPart p) :=
  List.getLast?_eq_some_getLast (Text.splitAt_ne_nil slash p)

variable {name : Text}

theorem lastPart_of_notMem (h : slash ∉ name) : lastPart name = name := by
  simp [lastPart, Text.splitAt_of_notMem h]

theorem lastPart_below (dir p : Text) : lastPart (dir ++ slash :: p) = lastPart p := by
  simp only [lastPart, Text.splitAt_append_cons]
  exact getLast_append_of_ne_nil _ (Text.splitAt_ne_nil slash p)

/-- An ending without a slash is an ending of the last part. -/
theorem suffix_lastPart {p ending : Text} (hslash : slash ∉ ending) (h : ending <:+ p) :
    ending <:+ lastPart p := by
  obtain ⟨s, rfl⟩ := h
  -- Bytes in front of the ending start new parts or lengthen the first one.
  have hparts : ∃ front part, Text.splitAt slash (s ++ ending) = front ++ [part ++ ending] := by
    induction s with
    | nil => exact ⟨[], [], Text.splitAt_of_notMem hslash⟩
    | cons c s ih =>
      obtain ⟨front, part, hsplit⟩ := ih
      rw [cons_append, Text.splitAt, hsplit]
      split
      · exact ⟨[] :: front, part, rfl⟩
      · cases front with
        | nil => exact ⟨[], c :: part, rfl⟩
        | cons f fs => exact ⟨(c :: f) :: fs, part, rfl⟩
  obtain ⟨front, part, hsplit⟩ := hparts
  refine ⟨part, ?_⟩
  have hlast := getLast?_splitAt (s ++ ending)
  rw [hsplit, List.getLast?_concat] at hlast
  exact Option.some.inj hlast

theorem lastPart_join_concat (h : slash ∉ name) (parts : List Text) :
    lastPart (Text.join [slash] (parts ++ [name])) = name := by
  induction parts with
  | nil => exact lastPart_of_notMem h
  | cons part parts ih =>
    obtain ⟨u, us, hparts⟩ := exists_cons_of_ne_nil (show parts ++ [name] ≠ [] by simp)
    rw [hparts] at ih
    rw [cons_append, hparts, Text.join_cons_cons, append_assoc, singleton_append,
      lastPart_below, ih]

theorem addPart_name (hname : IsName name) (rooted : Bool) (kept : List Text) :
    addPart rooted kept name = name :: kept := by
  simp [addPart, hname.ne_nil, hname.ne_dot, hname.ne_dotDot]

theorem lastPart_clean {p : Text} (h : slash ∉ name) (hname : IsName name) (front : List Text)
    (hp : Text.splitAt slash p = front ++ [name]) : lastPart (clean p) = name := by
  rw [clean, hp, foldl_append, foldl_cons, foldl_nil, addPart_name hname,
    reverse_cons]
  split
  · rw [← nil_append (slash :: _), lastPart_below, lastPart_join_concat h]
  · rw [if_neg (by simp), lastPart_join_concat h]

/-- The last part of a path below a directory. -/
theorem lastPart_join (h : slash ∉ name) (hname : IsName name) (dir : Text) :
    lastPart (join dir name) = name := by
  unfold join
  split
  · exact absurd rfl hname.ne_nil
  · exact lastPart_clean h hname [] (Text.splitAt_of_notMem h)
  · exact absurd rfl hname.ne_nil
  · refine lastPart_clean h hname (Text.splitAt slash dir) ?_
    rw [Text.splitAt_append_cons, Text.splitAt_of_notMem h]

end Path

namespace FileTree

/-! ### Following a path -/

/-- Where the parts of a path lead from a place, as rules. -/
inductive Leads (t : FileTree) : List Text → List Text → Target → Prop where
  | here {place : List Text} {n : FileNode} (hn : t.node? place = some n) :
    Leads t place [] (.node place n)
  | free {place : List Text} {part : Text} {parts : List Text} (hdir : t.node? place = some .dir)
    (hname : Path.IsName part) (hlength : part.length ≤ maxName)
    (hnone : t.node? (place ++ [part]) = none) (hparts : parts.all List.isEmpty) :
    Leads t place (part :: parts) (.free (place ++ [part]))
  | stay {place : List Text} {part : Text} {parts : List Text} {target : Target}
    (hdir : t.node? place = some .dir) (hpart : part = [] ∨ part = Path.dot)
    (h : Leads t place parts target) : Leads t place (part :: parts) target
  | up {place parts : List Text} {target : Target} (hdir : t.node? place = some .dir)
    (h : Leads t place.dropLast parts target) : Leads t place (Path.dotDot :: parts) target
  | down {place : List Text} {part : Text} {parts : List Text} {target : Target}
    (hdir : t.node? place = some .dir) (hname : Path.IsName part) (hlength : part.length ≤ maxName)
    (h : Leads t (place ++ [part]) parts target) : Leads t place (part :: parts) target

namespace Target

/-- The place of a target. -/
def place : Target → List Text
  | node p _ => p
  | free p => p

/-- A target where a file can be put. -/
def IsOpen : Target → Prop
  | node _ .dir => False
  | node _ (.file _) => True
  | free _ => True

end Target

variable {t t' : FileTree} {place parts : List Text} {target : Target}

/-- Something lies where a path starts. -/
theorem Leads.isSome_node? (h : t.Leads place parts target) : (t.node? place).isSome := by
  cases h with
  | here hn => rw [hn]; rfl
  | free hdir | stay hdir | up hdir | down hdir => rw [hdir]; rfl

/-- A path is followed by the rules. -/
theorem follow_eq_ok_iff : t.follow place parts = .ok target ↔ t.Leads place parts target := by
  constructor
  · intro h
    induction parts generalizing place with
    | nil =>
      rw [follow] at h
      split at h
      · next n hn =>
        cases h
        exact .here hn
      · cases h
    | cons part parts ih =>
      rw [follow] at h
      split at h
      · cases h
      · cases h
      next hdir =>
      split at h
      · next hpart => exact .stay hdir (by simpa using hpart) (ih h)
      next hpart =>
      split at h
      · next hup =>
        subst hup
        exact .up hdir (ih h)
      next hup =>
      have hname : Path.IsName part := by
        simp only [Bool.or_eq_true, List.isEmpty_iff, decide_eq_true_eq, not_or] at hpart
        exact ⟨hpart.1, hpart.2, hup⟩
      split at h
      · cases h
      next hlength =>
      split at h
      · exact .down hdir hname (Nat.le_of_not_lt hlength) (ih h)
      next hnone =>
      split at h
      · next hparts =>
        cases h
        exact .free hdir hname (Nat.le_of_not_lt hlength) (by simpa using hnone) hparts
      · cases h
  · intro h
    induction h with
    | here hn => rw [follow, hn]
    | free hdir hname hlength hnone hparts =>
      rw [follow, hdir]
      simp [hname.ne_nil, hname.ne_dot, hname.ne_dotDot, Nat.not_lt.mpr hlength, hnone, hparts]
    | stay hdir hpart _ ih =>
      rw [follow, hdir]
      simpa [hpart] using ih
    | up hdir _ ih =>
      have hpart : ¬ (dotDot.isEmpty || decide (dotDot = dot)) = true := by decide
      rw [follow, hdir]
      dsimp only
      rw [if_neg hpart, if_pos rfl]
      exact ih
    | down hdir hname hlength h ih =>
      rw [follow, hdir]
      simpa [hname.ne_nil, hname.ne_dot, hname.ne_dotDot, Nat.not_lt.mpr hlength, h.isSome_node?]
        using ih

/-- No directory lies at a target where a file can be put. -/
theorem Leads.not_dir (h : t.Leads place parts target) (hopen : target.IsOpen) :
    t.node? target.place ≠ some .dir := by
  induction h with
  | here hn =>
    intro hdir
    rw [Target.place, hn] at hdir
    cases hdir
    exact hopen
  | free hdir hname hlength hnone hparts =>
    rw [Target.place, hnone]
    nofun
  | stay _ _ _ ih | up _ _ ih | down _ _ _ _ ih => exact ih hopen

variable {name cwd p : Text} {n : FileNode}

theorem last_cases {part : Text} (h : (part :: parts).getLast? = some name) :
    parts = [] ∧ part = name ∨ parts ≠ [] ∧ parts.getLast? = some name := by
  cases parts with
  | nil => exact .inl ⟨rfl, by simpa using h⟩
  | cons p ps => exact .inr ⟨by simp, by simpa [List.getLast?_cons_cons] using h⟩

/-- A path whose last part is a name leads to a place with that name. -/
theorem Leads.getLast?_place (h : t.Leads place parts target) (hlast : parts.getLast? = some name)
    (hname : Path.IsName name) : target.place.getLast? = some name := by
  induction h with
  | here => cases hlast
  | free _ _ _ _ hparts =>
    rcases last_cases hlast with ⟨rfl, rfl⟩ | ⟨-, hlast⟩
    · exact List.getLast?_concat
    · have hempty := all_eq_true.mp hparts _ (mem_of_getLast? hlast)
      exact absurd (List.isEmpty_iff.mp hempty) hname.ne_nil
  | stay _ hpart _ ih =>
    rcases last_cases hlast with ⟨-, rfl⟩ | ⟨-, hlast⟩
    · exact absurd hpart (not_or.mpr ⟨hname.ne_nil, hname.ne_dot⟩)
    · exact ih hlast
  | up _ _ ih =>
    rcases last_cases hlast with ⟨-, rfl⟩ | ⟨-, hlast⟩
    · exact absurd rfl hname.ne_dotDot
    · exact ih hlast
  | down _ _ _ h ih =>
    rcases last_cases hlast with ⟨rfl, rfl⟩ | ⟨-, hlast⟩
    · cases h
      exact List.getLast?_concat
    · exact ih hlast

/-- A node that a path leads to lies at its place. -/
theorem Leads.node?_place {q : List Text} (h : t.Leads place parts (.node q n)) :
    t.node? q = some n := by
  generalize htarget : Target.node q n = target at h
  induction h with
  | here hn =>
    cases htarget
    exact hn
  | free => cases htarget
  | stay _ _ _ ih | up _ _ ih | down _ _ _ _ ih => exact ih htarget

/-- In a tree with the same directories a path leads to what now lies at its target. -/
theorem Leads.transfer (h : t.Leads place parts target)
    (hkept : ∀ {q}, t.node? q = some .dir → t'.node? q = some .dir)
    (hn : t'.node? target.place = some n) (hlast : parts.getLast? = some name)
    (hname : Path.IsName name) : t'.Leads place parts (.node target.place n) := by
  induction h with
  | here => cases hlast
  | free hdir hpart hlength _ hparts =>
    rcases last_cases hlast with ⟨rfl, -⟩ | ⟨-, hlast⟩
    · exact .down (hkept hdir) hpart hlength (.here hn)
    · have hempty := all_eq_true.mp hparts _ (mem_of_getLast? hlast)
      exact absurd (List.isEmpty_iff.mp hempty) hname.ne_nil
  | stay hdir hpart _ ih =>
    rcases last_cases hlast with ⟨-, rfl⟩ | ⟨-, hlast⟩
    · exact absurd hpart (not_or.mpr ⟨hname.ne_nil, hname.ne_dot⟩)
    · exact .stay (hkept hdir) hpart (ih hn hlast)
  | up hdir _ ih =>
    rcases last_cases hlast with ⟨-, rfl⟩ | ⟨-, hlast⟩
    · exact absurd rfl hname.ne_dotDot
    · exact .up (hkept hdir) (ih hn hlast)
  | down hdir hpart hlength h ih =>
    rcases last_cases hlast with ⟨rfl, rfl⟩ | ⟨-, hlast⟩
    · cases h
      exact .down (hkept hdir) hpart hlength (.here hn)
    · exact .down (hkept hdir) hpart hlength (ih hn hlast)

/-- A change at a place that is no directory keeps the directories. -/
theorem node?_dir_congr {other q : List Text} (hsame : ∀ q ≠ other, t'.node? q = t.node? q)
    (hother : t.node? other ≠ some .dir) (hq : t.node? q = some .dir) : t'.node? q = some .dir := by
  rw [hsame q]
  · exact hq
  · rintro rfl
    exact hother hq

/-- A path with another name leads where it led before. -/
theorem Leads.congr {other q : List Text} (h : t.Leads place parts (.node q n))
    (hsame : ∀ q ≠ other, t'.node? q = t.node? q) (hdir : t.node? other ≠ some .dir)
    (hother : other.getLast? ≠ some name) (hlast : parts.getLast? = some name)
    (hname : Path.IsName name) : t'.Leads place parts (.node q n) := by
  refine h.transfer (node?_dir_congr hsame hdir) ?_ hlast hname
  -- The last name does not lead to the other place.
  have hne : q ≠ other := by
    rintro rfl
    exact hother (h.getLast?_place hlast hname)
  exact (hsame q hne).trans h.node?_place

/-! ### Reading and writing -/

/-- The place from which a path is followed. -/
def start (cwd p : Text) : List Text := if Path.isAbsolute p then [] else placeOf cwd

theorem target_eq_ok_iff :
    t.target cwd p = .ok target ↔
      pathFault? p = none ∧ t.Leads (start cwd p) (Text.splitAt slash p) target := by
  rw [← follow_eq_ok_iff]
  unfold FileTree.target
  cases pathFault? p with
  | some f => simp
  | none => simp [start]

/-- What a path leads to, if it leads to something. -/
def seen (t : FileTree) (cwd p : Text) : Option FileNode :=
  match t.target cwd p with
  | .ok (.node _ n) => some n
  | _ => none

theorem seen_eq_some_iff : t.seen cwd p = some n ↔ ∃ q, t.target cwd p = .ok (.node q n) := by
  unfold seen
  constructor
  · intro h
    split at h
    · next q m htarget =>
      cases h
      exact ⟨q, htarget⟩
    · cases h
  · rintro ⟨q, h⟩
    rw [h]

theorem holds_eq_isSome_seen (t : FileTree) (cwd p : Text) :
    t.holds cwd p = (t.seen cwd p).isSome := by
  rw [holds, seen]
  cases t.target cwd p with
  | error f => rfl
  | ok target => cases target <;> rfl

/-- The content of a node that a path leads to. -/
def contentAt (p : Text) : FileNode → Except FileError Text
  | .file data => .ok data
  | .dir => .error ⟨.reading, p, .isDirectory⟩

theorem read_of_seen (h : t.seen cwd p = some n) : t.read cwd p = contentAt p n := by
  obtain ⟨q, htarget⟩ := seen_eq_some_iff.mp h
  rw [read, htarget]
  cases n <;> rfl

/-- A file can be written at a path. -/
def IsWritable (t : FileTree) (cwd p : Text) : Prop := ∃ t', t.write cwd p [] = .ok t'

/-- Where a file can be written, its path leads to a file or to a free place, whatever is
written. -/
theorem IsWritable.exists_target (h : t.IsWritable cwd p) :
    ∃ target, t.target cwd p = .ok target ∧ target.IsOpen ∧
      ∀ data, t.write cwd p data = .ok (t.put target.place (.file data)) := by
  obtain ⟨t', h⟩ := h
  unfold write at h
  split at h
  · cases h
  next hdir =>
  split at h
  · next q d htarget =>
    refine ⟨_, htarget, trivial, fun data => ?_⟩
    rw [write, if_neg hdir, htarget]
    rfl
  · cases h
  · next q htarget =>
    refine ⟨_, htarget, trivial, fun data => ?_⟩
    rw [write, if_neg hdir, htarget]
    rfl
  · cases h

/-- What can be read after a file was written: the file, and everything that has another name. -/
theorem write_spec (h : t.IsWritable cwd p) (hname : Path.IsName (lastPart p)) (data : Text) :
    ∃ t', t.write cwd p data = .ok t' ∧ t'.read cwd p = .ok data ∧
      ∀ q, Path.IsName (lastPart q) → lastPart q ≠ lastPart p →
        t'.seen cwd q = t.seen cwd q := by
  obtain ⟨target, htarget, hopen, hwrite⟩ := h.exists_target
  obtain ⟨hfault, hleads⟩ := target_eq_ok_iff.mp htarget
  have hlast := getLast?_splitAt p
  have hplace := hleads.getLast?_place hlast hname
  have hput : (t.put target.place (.file data)).node? target.place = some (.file data) := by
    refine node?_put_self t (fun hnil => ?_) (.file data)
    rw [hnil] at hplace
    cases hplace
  have hsame : ∀ r ≠ target.place, (t.put target.place (.file data)).node? r = t.node? r :=
    fun r hr => node?_put_of_ne t (.file data) hr
  have hdir := hleads.not_dir hopen
  refine ⟨_, hwrite data, ?_, ?_⟩
  · have hleads' := hleads.transfer (node?_dir_congr hsame hdir) hput hlast hname
    exact read_of_seen (seen_eq_some_iff.mpr ⟨_, target_eq_ok_iff.mpr ⟨hfault, hleads'⟩⟩)
  · intro q hq hne
    have hother : target.place.getLast? ≠ some (lastPart q) := by
      rw [hplace]
      exact fun h => hne (Option.some.inj h).symm
    -- Neither before nor after is a directory at the target, so the rules agree both ways.
    ext n
    rw [seen_eq_some_iff, seen_eq_some_iff]
    constructor
    · rintro ⟨r, hr⟩
      obtain ⟨hfault, hr⟩ := target_eq_ok_iff.mp hr
      exact ⟨r, target_eq_ok_iff.mpr ⟨hfault, hr.congr (fun r hr => (hsame r hr).symm)
        (by rw [hput]; nofun) hother (getLast?_splitAt q) hq⟩⟩
    · rintro ⟨r, hr⟩
      obtain ⟨hfault, hr⟩ := target_eq_ok_iff.mp hr
      exact ⟨r, target_eq_ok_iff.mpr ⟨hfault, hr.congr hsame hdir hother
        (getLast?_splitAt q) hq⟩⟩

theorem run_bind_of_run {α β : Type} {x : StateM FileTree α} {f : α → StateM FileTree β} {a : α}
    (h : x.run t = (a, t')) : (x >>= f).run t = (f a).run t' := by
  rw [StateT.run_bind, h]
  rfl

end FileTree

/-! ### Settings -/

namespace Manifest

/-- The settings for a directory of a file tree, if there are any. -/
def findIn (t : FileTree) (cwd start : Text) : Except LoadError (Option Manifest) :=
  match (Path.ancestors (Path.absolute cwd start)).find? fun dir =>
      t.holds cwd (Path.join dir fileName) with
  | none => .ok none
  | some dir => match t.read cwd (Path.join dir fileName) with
    | .error e => .error (.unreadable (Path.join dir fileName) e)
    | .ok text =>
      (ofText plainRefusal (Path.join dir fileName) (Path.absolute cwd dir) text).map some

/-- Looking for a directory with settings does not change the files. -/
theorem firstWith_run (cwd id : Text) (dirs : List Text) (t : FileTree) :
    (firstWith (FileTree.host cwd id) dirs).run t =
      (dirs.find? fun dir => t.holds cwd (join dir fileName), t) := by
  induction dirs with
  | nil => rfl
  | cons dir dirs ih =>
    have hstep : (firstWith (FileTree.host cwd id) (dir :: dirs)).run t =
        if t.holds cwd (join dir fileName) then (some dir, t)
        else (firstWith (FileTree.host cwd id) dirs).run t := by
      rw [firstWith]
      show StateT.run (if t.holds cwd (join dir fileName) then _ else _) t = _
      split <;> rfl
    rw [hstep, ih, List.find?_cons]
    cases t.holds cwd (join dir fileName) <;> rfl

/-- Loading settings reads one file and changes none. -/
theorem load_run (cwd id dir : Text) (t : FileTree) :
    (load (FileTree.host cwd id) dir).run t =
      (match t.read cwd (join dir fileName) with
        | .error e => .error (.unreadable (join dir fileName) e)
        | .ok text => ofText plainRefusal (join dir fileName) (absolute cwd dir) text, t) := by
  rw [load]
  show StateT.run (match t.read cwd (join dir fileName) with
    | .error e => _
    | .ok text => _) t = _
  cases t.read cwd (join dir fileName) <;> rfl

/-- Settings are found without a change to the tree. -/
theorem find_run (cwd id start : Text) (t : FileTree) :
    (find (FileTree.host cwd id) start).run t = (findIn t cwd start, t) := by
  have hdir : (FileTree.host cwd id).workingDir = pure cwd := rfl
  rw [find, findIn, hdir, pure_bind, FileTree.run_bind_of_run (firstWith_run cwd id _ t)]
  cases (ancestors (absolute cwd start)).find? fun dir =>
      t.holds cwd (join dir fileName) with
  | none => rfl
  | some dir =>
    dsimp only
    rw [FileTree.run_bind_of_run (load_run cwd id dir t)]
    cases t.read cwd (join dir fileName) with
    | error e => rfl
    | ok text =>
      dsimp only
      cases ofText plainRefusal (join dir fileName) (absolute cwd dir) text <;> rfl

/-- The settings that are found depend only on files with settings. -/
theorem findIn_congr {t t' : FileTree} {cwd : Text}
    (h : ∀ dir, t'.seen cwd (join dir fileName) = t.seen cwd (join dir fileName))
    (start : Text) : findIn t' cwd start = findIn t cwd start := by
  have hholds : (fun dir => t'.holds cwd (join dir fileName)) =
      fun dir => t.holds cwd (join dir fileName) := by
    funext dir
    rw [FileTree.holds_eq_isSome_seen, h, FileTree.holds_eq_isSome_seen]
  rw [findIn, findIn, hholds]
  cases hfind : (ancestors (absolute cwd start)).find? fun dir =>
      t.holds cwd (join dir fileName) with
  | none => rfl
  | some dir =>
    have hseen := List.find?_some hfind
    rw [FileTree.holds_eq_isSome_seen] at hseen
    obtain ⟨n, hn⟩ := Option.isSome_iff_exists.mp hseen
    dsimp only
    rw [FileTree.read_of_seen hn, FileTree.read_of_seen ((h dir).trans hn)]

end Manifest

end Foolscap
