import Foolscap.Image
import Foolscap.Proofs.Image.Cbor

/-!
# Images written and read

What is read where an image was written.  Reading is stricter than writing: texts that are not
well-formed UTF-8 are written all the same, and so are lists of any length, but such an image cannot
be read any more: its lists are refused first, then its texts.  All other images are read as they
were.
-/

namespace Foolscap

open List Cbor

namespace Image

/-- Whether all lists of an image are short enough to be read. -/
def hasShortLists (i : Image) : Bool :=
  (i.lines.getD []).length ≤ Cbor.maxCount && i.cells ≤ Cbor.maxCount &&
    i.sourceMap.length ≤ Cbor.maxCount

/-- Whether all texts of an image are well-formed UTF-8. -/
def isUtf8 (i : Image) : Bool :=
  i.buildId.isUtf8 && i.source.isUtf8 && (i.lines.getD []).all Text.isUtf8

/-- Why an image is refused once it is written, if it is.  The lengths of lists are looked at before
any text. -/
def flaw? (i : Image) : Option Flaw :=
  if !i.hasShortLists then some .tooManyItems else if !i.isUtf8 then some .notUtf8 else none

/-- An image whose numbers and sizes can be written. -/
structure Sized (i : Image) : Prop where
  version : i.version < 2 ^ 32
  buildId : i.buildId.length < Word.limit
  source : i.source.length < Word.limit
  lines : (i.lines.getD []).length < Word.limit
  line : ∀ l ∈ i.lines.getD [], l.length < Word.limit
  code : i.cells < Word.limit
  sourceMap : i.sourceMap.length < Word.limit
  mapped : ∀ n ∈ i.sourceMap, Text.fitsWord n
  memory : Text.fitsWord i.memory
  hash : (i.hash.getD []).length < Word.limit

/-! ### Values -/

theorem integer?_ofInt (n : Int) : (ofInt n).integer? = some n := by
  cases n with
  | ofNat n => rfl
  | negSucc n =>
    show some (-1 - (n : Int)) = some (Int.negSucc n)
    rw [Int.negSucc_eq]
    congr 1
    omega

variable {α : Type} {i j : Image} {f : α → Cbor}

theorem value_ofInt (nothing : α) (read : Cbor → Except Flaw α) (n : Int) :
    value nothing read (.ofInt n) = read (.ofInt n) := by
  cases n <;> rfl

theorem value_word {n : Int} (h : Text.fitsWord n) : value 0 asWord (.ofInt n) = .ok n := by
  rw [value_ofInt, asWord, integerIn, integer?_ofInt]
  exact if_pos h

theorem value_text (t : Text) :
    value [] asText (.text [t]) = if t.isUtf8 then .ok t else .error .notUtf8 := by
  show joined [t] = _
  simp [joined]

theorem mapM_texts (ts : List Text) :
    (ts.map fun t => Cbor.text [t]).mapM (Cbor.value [] Cbor.asText) =
      if ts.all Text.isUtf8 then .ok ts else .error .notUtf8 := by
  induction ts with
  | nil => rfl
  | cons t ts ih =>
    rw [map_cons, mapM_cons, ih, value_text, all_cons]
    cases t.isUtf8 <;> cases ts.all Text.isUtf8 <;> rfl

theorem mapM_words {ns : List Int} (h : ∀ n ∈ ns, Text.fitsWord n) :
    (ns.map ofInt).mapM (value 0 asWord) = .ok ns := by
  induction ns with
  | nil => rfl
  | cons n ns ih =>
    rw [map_cons, mapM_cons, value_word (h n (by simp)), ih fun m hm => h m (by simp [hm])]
    rfl

/-! ### Entries -/

section Entries

variable {key k : Nat} (keep : Bool) (v : Cbor) (ps : List (Cbor × Cbor))

theorem pairsPlain_entry (hk : k < Word.limit) (hv : keep → v.Plain) (hps : Cbor.PairsPlain ps) :
    Cbor.PairsPlain (entry k keep v ++ ps) := by
  cases keep with
  | false => exact hps
  | true => exact ⟨Nat.lt_trans hk (by decide), hv rfl, hps⟩

theorem flawInPairs?_entry (depth : Nat) :
    flawInPairs? depth (entry k keep v ++ ps) =
      (if keep then v.flaw? depth else none).or (flawInPairs? depth ps) := by
  cases keep <;> simp [entry, flawInPairs?, Cbor.flaw?]

theorem length_entry : (entry k keep v).length = keep.toNat := by
  cases keep <;> rfl

/-- Put an entry of the map into an image, unless it was left out. -/
def assignIf (i : Image) (keep : Bool) (k : Nat) (v : Cbor) : Except Flaw Image :=
  if keep then i.assign k v else .ok i

end Entries

/-- From an image that has its fields below a key, entries lead to another image if all texts in
them are well-formed, and to nothing otherwise. -/
def Reads (i : Image) (key : Nat) (ps : List (Cbor × Cbor)) (good : Bool) (j : Image) : Prop :=
  ∀ seen, (∀ k ∈ seen, k < key) →
    i.readPairs seen ps = if good then .ok j else .error .notUtf8

theorem Reads.nil (i : Image) (key : Nat) : Reads i key [] true i := fun _ _ => rfl

theorem key?_unsigned : ∀ k ∈ [1, 2, 3, 4, 5, 6, 7, 8],
    (unsigned k).key? [1, 2, 3, 4, 5, 6, 7, 8] = .ok (some k) := by
  simp only [forall_mem_cons]
  exact ⟨rfl, rfl, rfl, rfl, rfl, rfl, rfl, rfl, nofun⟩

/-- An entry is put into its field, and the others follow. -/
theorem Reads.entry {k : Nat} {keep good good' : Bool} {v : Cbor} {ps : List (Cbor × Cbor)}
    {i' : Image} (hk : k ∈ [1, 2, 3, 4, 5, 6, 7, 8])
    (hassign : i.assignIf keep k v = if good then .ok i' else .error .notUtf8)
    (h : Reads i' (k + 1) ps good' j) : Reads i k (entry k keep v ++ ps) (good && good') j := by
  intro seen hseen
  cases keep with
  | false =>
    cases good with
    | false => cases hassign
    | true =>
      cases hassign
      exact h seen fun n hn => Nat.lt_succ_of_lt (hseen n hn)
  | true =>
    have hnew : k ∉ seen := fun hmem => Nat.lt_irrefl k (hseen k hmem)
    have hbelow : ∀ n ∈ k :: seen, n < k + 1 :=
      forall_mem_cons.mpr ⟨Nat.lt_succ_self k, fun n hn => Nat.lt_succ_of_lt (hseen n hn)⟩
    rw [assignIf, if_pos rfl] at hassign
    rw [Image.entry, if_pos rfl, singleton_append, readPairs, key?_unsigned k hk]
    show (if k ∈ seen then _ else _) = _
    rw [if_neg hnew, hassign]
    cases good with
    | false => rfl
    | true => exact h _ hbelow

/-- An entry whose value always fits its field. -/
theorem Reads.entry_ok {k : Nat} {keep good : Bool} {v : Cbor} {ps : List (Cbor × Cbor)}
    {i' : Image} (hk : k ∈ [1, 2, 3, 4, 5, 6, 7, 8]) (hassign : i.assignIf keep k v = .ok i')
    (h : Reads i' (k + 1) ps good j) : Reads i k (Image.entry k keep v ++ ps) good j :=
  .entry hk (hassign.trans (if_pos rfl).symm) h

/-! ### Fields -/

/-- The entries of an image. -/
def fields (i : Image) : List (Cbor × Cbor) :=
  entry 1 true (.unsigned i.version) ++
    (entry 2 true (.text [i.buildId]) ++
    (entry 3 (!i.source.isEmpty) (.text [i.source]) ++
    (entry 4 true (listOrNull (fun l => .text [l]) i.lines) ++
    (entry 5 true (listOrNull (fun w => .ofInt w.toInt) i.code) ++
    (entry 6 (!i.sourceMap.isEmpty) (.array (i.sourceMap.map .ofInt)) ++
    (entry 7 (i.memory ≠ 0) (.ofInt i.memory) ++
    (entry 8 true (orNull (fun h => .bytes [h]) i.hash) ++ [])))))))

theorem toCbor_eq (i : Image) : i.toCbor = .map i.fields := by
  simp only [toCbor, fields, append_assoc, append_nil]

/-! Each of the following states what is put into one field.  A field that is left out keeps the
value that it has in an image without anything. -/

theorem assign_version {n : Nat} (h : n < 2 ^ 32) :
    i.assignIf true 1 (.unsigned n) = .ok { i with version := n } := by
  have hread : value 0 (integerIn "uint32" 0 4294967295) (.unsigned n) = .ok (n : Int) := by
    show (if _ then _ else _) = _
    rw [if_pos]
    simp only [Bool.and_eq_true, decide_eq_true_eq]
    omega
  rw [assignIf, if_pos rfl, assign, hread]
  rfl

theorem assign_buildId (t : Text) :
    i.assignIf true 2 (.text [t]) =
      if t.isUtf8 then .ok { i with buildId := t } else .error .notUtf8 := by
  rw [assignIf, if_pos rfl, assign, value_text]
  cases t.isUtf8 <;> rfl

theorem assign_source (hi : i.source = []) (t : Text) :
    i.assignIf (!t.isEmpty) 3 (.text [t]) =
      if t.isUtf8 then .ok { i with source := t } else .error .notUtf8 := by
  cases t with
  | nil =>
    show Except.ok i = Except.ok { i with source := [] }
    rw [← hi]
  | cons b t =>
    show i.assign 3 _ = _
    rw [assign, value_text]
    cases Text.isUtf8 (b :: t) <;> rfl

theorem assign_lines (ls : Option (List Text)) :
    i.assignIf true 4 (listOrNull (fun l => .text [l]) ls) =
      if (ls.getD []).all Text.isUtf8 then .ok { i with lines := ls } else .error .notUtf8 := by
  cases ls with
  | none => rfl
  | some ls =>
    show (some <$> List.mapM (Cbor.value [] Cbor.asText) (ls.map fun l => Cbor.text [l]) >>= _) = _
    rw [mapM_texts, Option.getD_some]
    cases ls.all Text.isUtf8 <;> rfl

/-- Code that is absent stays so, and is not confused with code that is empty. -/
theorem assign_code (ws : Option (List Word)) :
    i.assignIf true 5 (listOrNull (fun w => .ofInt w.toInt) ws) = .ok { i with code := ws } := by
  cases ws with
  | none => rfl
  | some ws =>
    have hwords : (ws.map fun w => ofInt w.toInt).mapM (value 0 asWord) =
        .ok (ws.map Int64.toInt) := by
      rw [← Function.comp_def ofInt, ← map_map, mapM_words]
      simp only [mem_map]
      rintro n ⟨w, -, rfl⟩
      exact Text.fitsWord_toInt w
    show (some <$> List.mapM (value 0 asWord) (ws.map fun w => ofInt w.toInt) >>= _) = _
    rw [hwords]
    show Except.ok { i with code := some ((ws.map Int64.toInt).map Int64.ofInt) } = _
    simp [Function.comp_def]

theorem assign_sourceMap (hi : i.sourceMap = []) {ns : List Int}
    (h : ∀ n ∈ ns, Text.fitsWord n) :
    i.assignIf (!ns.isEmpty) 6 (.array (ns.map .ofInt)) = .ok { i with sourceMap := ns } := by
  cases ns with
  | nil =>
    show Except.ok i = Except.ok { i with sourceMap := [] }
    rw [← hi]
  | cons n ns =>
    show (List.mapM (value 0 asWord) ((n :: ns).map ofInt) >>= _) = _
    rw [mapM_words h]
    rfl

theorem assign_memory (hi : i.memory = 0) {n : Int} (h : Text.fitsWord n) :
    i.assignIf (n ≠ 0) 7 (.ofInt n) = .ok { i with memory := n } := by
  by_cases hzero : n = 0
  · rw [assignIf, if_neg (by simp [hzero]), hzero, ← hi]
  · rw [assignIf, if_pos (by simp [hzero]), assign, value_word h]
    rfl

theorem assign_hash (h : Option Text) :
    i.assignIf true 8 (orNull (fun h => .bytes [h]) h) = .ok { i with hash := h } := by
  cases h with
  | none => rfl
  | some h =>
    show Except.ok { i with hash := some (List.flatten [h]) } = _
    rw [flatten_singleton]

/-- The entries of an image lead to that image, if its texts are well-formed. -/
theorem reads_fields (h : i.Sized) : Reads { version := 0 } 1 i.fields i.isUtf8 i := by
  have hutf8 : i.isUtf8 = (i.buildId.isUtf8 && (i.source.isUtf8 &&
      ((i.lines.getD []).all Text.isUtf8 && true))) := by
    simp [isUtf8, Bool.and_assoc]
  rw [hutf8]
  exact .entry_ok (by decide) (assign_version h.version) <|
    .entry (by decide) (assign_buildId _) <|
    .entry (by decide) (assign_source rfl _) <|
    .entry (by decide) (assign_lines _) <|
    .entry_ok (by decide) (assign_code _) <|
    .entry_ok (by decide) (assign_sourceMap rfl h.mapped) <|
    .entry_ok (by decide) (assign_memory rfl h.memory) <|
    .entry_ok (by decide) (assign_hash _) (.nil _ _)

/-! ### Sizes -/

theorem plain_ofInt {n : Int} (h : Text.fitsWord n) : (ofInt n).Plain := by
  cases n with
  | ofNat n =>
    simp only [Text.fitsWord, Bool.and_eq_true, decide_eq_true_eq, Int.ofNat_eq_natCast] at h
    exact show n < 2 ^ 64 by omega
  | negSucc n =>
    simp only [Text.fitsWord, Bool.and_eq_true, decide_eq_true_eq] at h
    exact show n < 2 ^ 64 by omega

theorem flaw?_ofInt (depth : Nat) (n : Int) : (ofInt n).flaw? depth = none := by
  cases n <;> rfl

theorem allPlain_map {as : List α} (h : ∀ a ∈ as, (f a).Plain) : Cbor.AllPlain (as.map f) := by
  induction as with
  | nil => trivial
  | cons a as ih => exact ⟨h a (by simp), ih fun b hb => h b (by simp [hb])⟩

theorem flawIn?_map {depth : Nat} (h : ∀ a, (f a).flaw? depth = none) (as : List α) :
    flawIn? depth (as.map f) = none := by
  induction as with
  | nil => rfl
  | cons a as ih => rw [map_cons, flawIn?, h, ih, Option.or_none]

theorem plain_listOrNull {as : Option (List α)} (hsize : (as.getD []).length < Word.limit)
    (h : ∀ a ∈ as.getD [], (f a).Plain) : (listOrNull f as).Plain := by
  cases as with
  | none => exact show 22 < 24 by decide
  | some as => exact ⟨by simpa using hsize, allPlain_map h⟩

/-- A list in an image is refused if it is too long. -/
theorem flaw?_array (h : ∀ a, (f a).flaw? 2 = none) (as : List α) :
    (Cbor.array (as.map f)).flaw? 1 =
      if as.length ≤ maxCount then none else some .tooManyItems := by
  rw [Cbor.flaw?, if_neg (by decide), flawIn?_map h, length_map]
  simp only [← Nat.not_lt, ite_not]

theorem flaw?_listOrNull (h : ∀ a, (f a).flaw? 2 = none) (as : Option (List α)) :
    (listOrNull f as).flaw? 1 =
      if (as.getD []).length ≤ maxCount then none else some .tooManyItems := by
  cases as with
  | none => rfl
  | some as => exact flaw?_array h as

theorem length_fields_le (i : Image) : i.fields.length ≤ 8 := by
  have hsource := Bool.toNat_le (!i.source.isEmpty)
  have hmap := Bool.toNat_le (!i.sourceMap.isEmpty)
  have hmemory := Bool.toNat_le (decide (i.memory ≠ 0))
  simp only [fields, length_append, length_entry, length_nil, Bool.toNat_true]
  omega

/-- The item of an image has only forms that the decoder takes, with lengths that can be
written. -/
theorem plain_toCbor (h : i.Sized) : i.toCbor.Plain := by
  rw [toCbor_eq]
  refine ⟨Nat.lt_of_le_of_lt (length_fields_le i) (by decide), ?_⟩
  refine pairsPlain_entry _ _ _ (by decide) (fun _ => Nat.lt_trans h.version (by decide)) ?_
  refine pairsPlain_entry _ _ _ (by decide) (fun _ => ⟨_, rfl, h.buildId⟩) ?_
  refine pairsPlain_entry _ _ _ (by decide) (fun _ => ⟨_, rfl, h.source⟩) ?_
  refine pairsPlain_entry _ _ _ (by decide) (fun _ =>
    plain_listOrNull h.lines fun l hl => ⟨_, rfl, h.line l hl⟩) ?_
  refine pairsPlain_entry _ _ _ (by decide) (fun _ =>
    plain_listOrNull h.code fun w _ => plain_ofInt (Text.fitsWord_toInt w)) ?_
  refine pairsPlain_entry _ _ _ (by decide) (fun _ =>
    ⟨by simpa using h.sourceMap, allPlain_map fun n hn => plain_ofInt (h.mapped n hn)⟩) ?_
  refine pairsPlain_entry _ _ _ (by decide) (fun _ => plain_ofInt h.memory) ?_
  refine pairsPlain_entry _ _ _ (by decide) (fun _ => ?_) trivial
  have hsize := h.hash
  cases hhash : i.hash with
  | none => exact show 22 < 24 by decide
  | some t =>
    rw [hhash] at hsize
    exact ⟨t, rfl, hsize⟩

/-- An image is never too deep, so the only thing that the format refuses in it are lists that are
too long. -/
theorem flaw?_toCbor (i : Image) :
    i.toCbor.flaw? 0 = if i.hasShortLists then none else some .tooManyItems := by
  have hcount : ¬ maxCount < i.fields.length :=
    Nat.not_lt.mpr (Nat.le_trans (length_fields_le i) (by decide))
  have hlines := flaw?_listOrNull (f := fun l => Cbor.text [l]) (fun _ => rfl) i.lines
  have hcode := flaw?_listOrNull (f := fun w : Word => Cbor.ofInt w.toInt)
    (fun w => flaw?_ofInt 2 w.toInt) i.code
  have hmap : (if !i.sourceMap.isEmpty then (Cbor.array (i.sourceMap.map .ofInt)).flaw? 1
      else none) = if i.sourceMap.length ≤ maxCount then none else some .tooManyItems := by
    rw [flaw?_array (flaw?_ofInt 2)]
    cases i.sourceMap <;> simp
  have hhash : (orNull (fun h => Cbor.bytes [h]) i.hash).flaw? 1 = none := by
    cases i.hash <;> rfl
  rw [toCbor_eq, Cbor.flaw?, if_neg (by decide), if_neg hcount, hasShortLists, cells]
  simp only [fields, flawInPairs?_entry, hlines, hcode, hmap, hhash, flaw?_ofInt, ite_self]
  by_cases hl : (i.lines.getD []).length ≤ maxCount <;>
    by_cases hc : (i.code.getD []).length ≤ maxCount <;>
    by_cases hm : i.sourceMap.length ≤ maxCount <;>
    simp [Cbor.flaw?, flawInPairs?, hl, hc, hm]

/-- What is read where an image was written. -/
theorem unmarshal_marshal (h : i.Sized) (hversion : i.version = currentVersion) :
    unmarshal i.marshal = (unflawed i.flaw? i).mapError .corrupt := by
  have htake : i.marshal.take 4 = magic := by
    rw [marshal, take_left' (by decide)]
  have hdrop : i.marshal.drop 4 = i.toCbor.encode := by
    rw [marshal, drop_left' (by decide)]
  have hcbor : ofCbor i.toCbor = if i.isUtf8 then .ok i else .error .notUtf8 := by
    rw [toCbor_eq]
    exact reads_fields h [] nofun
  have hread : decode i.toCbor.encode >>= ofCbor = unflawed i.flaw? i := by
    rw [decode_encode (plain_toCbor h), flaw?_toCbor, flaw?]
    cases i.hasShortLists with
    | false => rfl
    | true =>
      refine hcbor.trans ?_
      cases i.isUtf8 <;> rfl
  rw [unmarshal, if_pos htake, hdrop, hread]
  cases i.flaw? with
  | some flaw => rfl
  | none => exact if_pos hversion

/-! ### Images of the current version -/

/-- The texts of an image. -/
def texts (i : Image) : List Text := i.buildId :: i.source :: i.hash.getD [] :: i.lines.getD []

/-- An image that the format can hold: it has the current version, its texts are well-formed UTF-8,
its lists are not too long, and its numbers and the lengths of its texts are those of a 64-bit
machine. -/
structure Portable (i : Image) : Prop where
  version : i.version = currentVersion
  utf8 : i.isUtf8
  short : i.hasShortLists
  mapped : ∀ n ∈ i.sourceMap, Text.fitsWord n
  memory : Text.fitsWord i.memory
  texts : ∀ t ∈ i.texts, t.length < Word.limit

/-- The keys of an image: all from 1 to 8, less those of an empty source text, an empty source map
and a memory size of 0. -/
def keys (i : Image) : List Nat :=
  [1, 2, 3, 4, 5, 6, 7, 8].filter fun k =>
    !(k == 3 && i.source.isEmpty || k == 6 && i.sourceMap.isEmpty || k == 7 && i.memory == 0)

/-- An image that the format can hold has sizes that can be written. -/
theorem Portable.sized (h : i.Portable) : i.Sized := by
  have hcount : maxCount < Word.limit := by decide
  have hshort := h.short
  simp only [hasShortLists, Bool.and_eq_true, decide_eq_true_eq] at hshort
  obtain ⟨⟨hlines, hcode⟩, hmap⟩ := hshort
  exact {
    version := by rw [h.version]; decide
    buildId := h.texts _ (by simp [Image.texts])
    source := h.texts _ (by simp [Image.texts])
    lines := Nat.lt_of_le_of_lt hlines hcount
    line := fun l hl => h.texts l (by simp [Image.texts, hl])
    code := Nat.lt_of_le_of_lt hcode hcount
    sourceMap := Nat.lt_of_le_of_lt hmap hcount
    mapped := h.mapped
    memory := h.memory
    hash := h.texts _ (by simp [Image.texts]) }

/-- A portable image is read as it was written. -/
theorem Portable.read (h : i.Portable) : unmarshal i.marshal = .ok i := by
  have hflaw : i.flaw? = none := by rw [flaw?, h.short, h.utf8]; rfl
  rw [unmarshal_marshal h.sized h.version, hflaw]
  rfl

theorem keys_fields (i : Image) : i.fields.map Prod.fst = i.keys.map unsigned := by
  cases hsource : i.source.isEmpty <;> cases hmap : i.sourceMap.isEmpty <;>
    by_cases hmemory : i.memory = 0 <;>
    simp [fields, keys, entry, hsource, hmap, hmemory]

/-- Portable images are written as maps with their keys in order, read as they were, and told apart
by their bytes. -/
theorem portable_round_trip {i : Image} (h : i.Portable) :
    unmarshal i.marshal = .ok i ∧
      (∀ j : Image, j.Portable → j.marshal = i.marshal → j = i) ∧
      ∃ pairs, i.marshal = magic ++ (Cbor.map pairs).encode ∧
        pairs.map Prod.fst = i.keys.map Cbor.unsigned ∧
        Cbor.decode (Cbor.map pairs).encode = .ok (.map pairs) := by
  refine ⟨h.read, fun j hj heq => ?_, i.fields, ?_, keys_fields i, ?_⟩
  · have hread := hj.read
    rw [heq, h.read] at hread
    exact (Except.ok.inj hread).symm
  · rw [marshal, toCbor_eq]
  · rw [← toCbor_eq, Cbor.decode_encode (plain_toCbor h.sized), flaw?_toCbor, if_pos h.short]
    rfl

/-- Numbers at the bounds of every width, no source text, and lists that are empty or absent. -/
theorem portable_round_trip_bounds : ∃ i j : Image, i.Portable ∧ j.Portable ∧
    i.memory = -2 ^ 63 ∧ i.code = some [Int64.minValue, -1, 0, Int64.maxValue] ∧
    i.sourceMap = [23, 24, 255, 256, 65535, 65536, 4294967295, 4294967296, 2 ^ 63 - 1] ∧
    i.lines = some [] ∧ j = { i with lines := none } ∧ i.keys = [1, 2, 4, 5, 6, 7, 8] ∧
    unmarshal i.marshal = .ok i ∧ unmarshal j.marshal = .ok j ∧ i.marshal ≠ j.marshal := by
  have hportable : ∀ ls ∈ [none, some []], Portable
      { buildId := "b", lines := ls, code := some [Int64.minValue, -1, 0, Int64.maxValue]
        sourceMap := [23, 24, 255, 256, 65535, 65536, 4294967295, 4294967296, 2 ^ 63 - 1]
        memory := -2 ^ 63, hash := some [0, 255] } := by
    simp only [List.forall_mem_cons]
    refine ⟨?_, ?_, nofun⟩
    · exact ⟨rfl, by decide, by decide, by decide, by decide, by decide⟩
    · exact ⟨rfl, by decide, by decide, by decide, by decide, by decide⟩
  have hi := hportable (some []) (by simp)
  have hj := hportable none (by simp)
  refine ⟨_, _, hi, hj, rfl, rfl, rfl, rfl, rfl, by decide, (portable_round_trip hi).1,
    (portable_round_trip hj).1, fun heq => ?_⟩
  cases (portable_round_trip hj).2.1 _ hi heq

end Image

end Foolscap
