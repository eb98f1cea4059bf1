import Foolscap.Image.Cbor
import Foolscap.Proofs.Word

/-!
# Data items written and read

A data item that is written is read back as it was, unless it has more parts than are accepted when
reading.  Writing asks for no limit, so not every item that can be written can be read; why it is
then refused is known as well.
-/

namespace Foolscap

open List

namespace Cbor

/-! ### Numbers -/

@[simp] theorem length_bigEndian (width n : Nat) : (bigEndian width n).length = width := by
  induction width with
  | zero => rfl
  | succ width ih => rw [bigEndian, length_cons, ih]

theorem foldl_bigEndian (width n m : Nat) :
    (bigEndian width n).foldl (fun n b => 256 * n + b.toNat) m =
      m * 256 ^ width + n % 256 ^ width := by
  induction width generalizing m with
  | zero => simp [bigEndian, Nat.mod_one]
  | succ width ih =>
    rw [bigEndian, foldl_cons, ih, UInt8.toNat_ofNat']
    have hsplit : n % 256 ^ (width + 1) =
        256 ^ width * (n / 256 ^ width % 256) + n % 256 ^ width := by
      rw [Nat.pow_succ, Nat.mod_mul, Nat.add_comm]
    show (256 * m + n / 256 ^ width % 256) * 256 ^ width + n % 256 ^ width = _
    rw [hsplit, Nat.pow_succ, Nat.add_mul, Nat.add_assoc, Nat.mul_comm (n / 256 ^ width % 256),
      Nat.mul_comm 256 m, Nat.mul_assoc, Nat.mul_comm 256]

variable {width n major fuel depth most : Nat} {t : Text}

/-- A number that fits into so many bytes is read from them. -/
theorem ofBigEndian_bigEndian (h : n < 256 ^ width) : ofBigEndian (bigEndian width n) = n := by
  rw [ofBigEndian, foldl_bigEndian, Nat.zero_mul, Nat.zero_add, Nat.mod_eq_of_lt h]

theorem piece_append (major : Nat) {s : Text} (hs : s.length < Word.limit) (t : Text) :
    piece major s.length (s ++ t) = .ok (s, t) := by
  have hlength : checkLength major s.length = .ok () := if_pos (Text.fitsWord_natCast hs)
  rw [piece, hlength]
  simp [take, bind, Except.bind]

/-! ### Heads -/

theorem wideHead_bigEndian (major info : Nat) (h : n < 256 ^ width) (rest : Text) :
    wideHead major info width (bigEndian width n ++ rest) = .ok ⟨major, info, .fixed n, rest⟩ := by
  have htake : take width (bigEndian width n ++ rest) = .ok (bigEndian width n, rest) := by
    simp [take]
  rw [wideHead, htake]
  show Except.ok (Head.mk major info (.fixed (ofBigEndian (bigEndian width n))) rest) = _
  rw [ofBigEndian_bigEndian h]

/-- The first byte of a head says what its five low bits and its three high bits say. -/
theorem toNat_first {info : Nat} (hmajor : major < 8) (hinfo : info < 32) :
    (UInt8.ofNat (32 * major + info)).toNat / 32 = major ∧
      (UInt8.ofNat (32 * major + info)).toNat % 32 = info := by
  have hlt : 32 * major + info < 256 := by omega
  rw [UInt8.toNat_ofNat_of_lt' hlt]
  omega

/-- A number of several bytes in a head. -/
theorem readHead_wide {info : Nat} (hmajor : major < 7)
    (hinfo : (info, width) ∈ [(24, 1), (25, 2), (26, 4), (27, 8)]) (hn : n < 256 ^ width)
    (rest : Text) :
    readHead (UInt8.ofNat (32 * major + info) :: bigEndian width n ++ rest) =
      .ok ⟨major, info, .fixed n, rest⟩ := by
  have hwide := wideHead_bigEndian major info hn rest
  simp only [mem_cons, Prod.mk.injEq, not_mem_nil, or_false] at hinfo
  obtain ⟨hdiv, hmod⟩ := toNat_first (Nat.lt_succ_of_lt hmajor) (show info < 32 by omega)
  rw [cons_append, readHead]
  simp only [hdiv, hmod]
  rcases hinfo with ⟨rfl, rfl⟩ | ⟨rfl, rfl⟩ | ⟨rfl, rfl⟩ | ⟨rfl, rfl⟩
  · simp [hwide, Nat.ne_of_lt hmajor, bind, Except.bind, pure, Except.pure]
  · simp [hwide]
  · simp [hwide]
  · simp [hwide]

/-- What was written in a head is read from it.  Only small simple values are written. -/
theorem readHead_head (hmajor : major < 8) (hn : n < 2 ^ 64) (hsimple : major = 7 → n < 24)
    (rest : Text) :
    ∃ info, readHead (head major n ++ rest) = .ok ⟨major, info, .fixed n, rest⟩ ∧
      (major = 7 → info ≤ 24) := by
  unfold head
  dsimp only
  split
  · next h =>
    obtain ⟨hdiv, hmod⟩ := toNat_first hmajor (show n < 32 by omega)
    refine ⟨n, ?_, by omega⟩
    rw [singleton_append, readHead]
    simp only [hdiv, hmod, if_pos h]
  next hlarge =>
  have hmajor : major < 7 := by omega
  split
  · next h => exact ⟨24, readHead_wide hmajor (by decide) h rest, by omega⟩
  split
  · next h => exact ⟨25, readHead_wide hmajor (by decide) h rest, by omega⟩
  split
  · next h => exact ⟨26, readHead_wide hmajor (by decide) h rest, by omega⟩
  · exact ⟨27, readHead_wide hmajor (by decide) hn rest, by omega⟩

theorem length_head_pos (major n : Nat) : 0 < (head major n).length := by
  unfold head
  dsimp only
  repeat' split
  all_goals exact Nat.succ_pos _

/-- Reading an item with a head starts with a call, and enough is left for what follows. -/
theorem exists_fuel (hfuel : 2 * (head major n ++ t).length ≤ fuel) :
    ∃ fuel', fuel = fuel' + 1 ∧ 2 * t.length + 1 ≤ fuel' := by
  have hpos := length_head_pos major n
  rw [length_append] at hfuel
  exact ⟨fuel - 1, by omega, by omega⟩

/-! ### Items -/

mutual

/-- Items without tags and floats, whose strings are in one piece and whose sizes can be written. -/
def Plain : Cbor → Prop
  | unsigned n => n < 2 ^ 64
  | negative n => n < 2 ^ 64
  | bytes chunks => ∃ t, chunks = [t] ∧ t.length < Word.limit
  | text chunks => ∃ t, chunks = [t] ∧ t.length < Word.limit
  | array items => items.length < Word.limit ∧ AllPlain items
  | map pairs => pairs.length < Word.limit ∧ PairsPlain pairs
  | tag _ _ => False
  | simple n => n < 24
  | float _ => False

/-- All of some items are plain. -/
def AllPlain : List Cbor → Prop
  | [] => True
  | i :: is => i.Plain ∧ AllPlain is

/-- All of some keys and values are plain. -/
def PairsPlain : List (Cbor × Cbor) → Prop
  | [] => True
  | (k, v) :: ps => k.Plain ∧ v.Plain ∧ PairsPlain ps

end

mutual

/-- Why an item at a depth is refused: the first of its parts, in the order of the bytes, that is
too deep or has more parts than are accepted. -/
def flaw? (depth : Nat) : Cbor → Option Flaw
  | array items =>
    if maxDepth ≤ depth then some .tooDeep
    else if maxCount < items.length then some .tooManyItems
    else flawIn? (depth + 1) items
  | map pairs =>
    if maxDepth ≤ depth then some .tooDeep
    else if maxCount < pairs.length then some .tooManyPairs
    else flawInPairs? (depth + 1) pairs
  | _ => none

/-- Why the first of some items that is refused is refused. -/
def flawIn? (depth : Nat) : List Cbor → Option Flaw
  | [] => none
  | i :: is => (flaw? depth i).or (flawIn? depth is)

/-- Why the first of some keys and values that is refused is refused. -/
def flawInPairs? (depth : Nat) : List (Cbor × Cbor) → Option Flaw
  | [] => none
  | (k, v) :: ps => (flaw? depth k).or ((flaw? depth v).or (flawInPairs? depth ps))

end

/-- A value, unless there is something wrong. -/
def unflawed {α : Type} (flaw : Option Flaw) (a : α) : Except Flaw α :=
  match flaw with
  | none => .ok a
  | some f => .error f

/-- Keys and values one after the other. -/
def inRow : List (Cbor × Cbor) → List Cbor
  | [] => []
  | (k, v) :: ps => k :: v :: inRow ps

theorem pairUp_inRow (ps : List (Cbor × Cbor)) : pairUp (inRow ps) = .ok ps := by
  induction ps with
  | nil => rfl
  | cons kv ps ih =>
    rw [inRow, pairUp, ih]
    rfl

theorem length_encode_pos (c : Cbor) (hc : c.Plain) : 0 < (encode c).length := by
  cases c with
  | unsigned n | negative n | simple n =>
    rw [encode]
    exact length_head_pos _ _
  | bytes chunks | text chunks | array items | map pairs =>
    rw [encode, length_append]
    exact Nat.add_pos_left (length_head_pos _ _) _
  | tag n c | float w => exact hc.elim

/-! ### Sequences -/

theorem sequence_zero {flaw : Flaw} (hfuel : 0 < fuel) :
    sequence fuel depth most flaw (.fixed 0) t = .ok ([], t) := by
  obtain ⟨fuel, rfl⟩ := Nat.exists_eq_add_one_of_ne_zero (Nat.ne_of_gt hfuel)
  rw [sequence]
  nofun

/-- One more item of a sequence. -/
theorem sequence_succ {rest : Text} {c : Cbor} {flaw : Flaw} {f : Option Flaw}
    (hitem : item fuel depth t = unflawed f (c, rest)) :
    sequence (fuel + 1) depth most flaw (.fixed (n + 1)) t = unflawed f () >>= fun _ =>
      (sequence fuel depth most flaw (.fixed n) rest).map fun r => (c :: r.1, r.2) := by
  rw [sequence, hitem]
  cases f with
  | some f => rfl
  | none =>
    show (sequence fuel depth most flaw (.fixed n) rest >>= _) = Except.map _ _
    cases sequence fuel depth most flaw (.fixed n) rest <;> rfl

/-- The number of items that a size stands for, unless there is something wrong with it. -/
theorem itemsOf_fixed (hn : n < Word.limit) (each : Nat) (flaw : Flaw) :
    itemsOf depth major each flaw (.fixed n) =
      if maxDepth ≤ depth then .error .tooDeep
      else if maxCount < n then .error flaw else .ok (.fixed (each * n)) := by
  have hlength : checkLength major n = .ok () := if_pos (Text.fitsWord_natCast hn)
  rw [itemsOf]
  split
  · rfl
  · rw [hlength]
    split <;> rfl

/-! ### Items written and read

The induction is on the item, not on the fuel: two calls for each byte that was written are enough,
since a head takes at least one byte. -/

mutual

/-- An item that was written is read, unless it has a flaw. -/
theorem item_encode : (c : Cbor) → c.Plain → ∀ {fuel depth : Nat} (rest : Text),
    2 * (encode c).length ≤ fuel →
      item fuel depth (encode c ++ rest) = unflawed (flaw? depth c) (c, rest)
  | unsigned n, hc, fuel, depth, rest, hfuel => by
    rw [Plain] at hc
    rw [encode, ← append_nil (head 0 n)] at hfuel ⊢
    obtain ⟨fuel, rfl, -⟩ := exists_fuel hfuel
    obtain ⟨info, hhead, -⟩ := readHead_head (by decide : 0 < 8) hc (by omega) rest
    rw [append_nil, item, hhead]
    rfl
  | negative n, hc, fuel, depth, rest, hfuel => by
    rw [Plain] at hc
    rw [encode, ← append_nil (head 1 n)] at hfuel ⊢
    obtain ⟨fuel, rfl, -⟩ := exists_fuel hfuel
    obtain ⟨info, hhead, -⟩ := readHead_head (by decide : 1 < 8) hc (by omega) rest
    rw [append_nil, item, hhead]
    rfl
  | bytes chunks, hc, fuel, depth, rest, hfuel => by
    obtain ⟨t, rfl, ht⟩ := hc
    rw [encode, flatten_singleton] at hfuel ⊢
    obtain ⟨fuel, rfl, -⟩ := exists_fuel hfuel
    obtain ⟨info, hhead, -⟩ := readHead_head (by decide : 2 < 8) (Nat.lt_trans ht (by decide))
      (by omega) (t ++ rest)
    rw [item, append_assoc, hhead]
    show (string 2 fuel (.fixed t.length) (t ++ rest) >>= _) = _
    rw [string, piece_append 2 ht]
    rfl
  | text chunks, hc, fuel, depth, rest, hfuel => by
    obtain ⟨t, rfl, ht⟩ := hc
    rw [encode, flatten_singleton] at hfuel ⊢
    obtain ⟨fuel, rfl, -⟩ := exists_fuel hfuel
    obtain ⟨info, hhead, -⟩ := readHead_head (by decide : 3 < 8) (Nat.lt_trans ht (by decide))
      (by omega) (t ++ rest)
    rw [item, append_assoc, hhead]
    show (string 3 fuel (.fixed t.length) (t ++ rest) >>= _) = _
    rw [string, piece_append 3 ht]
    rfl
  | array items, hc, fuel, depth, rest, hfuel => by
    rw [encode] at hfuel ⊢
    obtain ⟨fuel, rfl, hitems⟩ := exists_fuel hfuel
    obtain ⟨info, hhead, -⟩ := readHead_head (by decide : 4 < 8) (Nat.lt_trans hc.1 (by decide))
      (by omega) (encodeAll items ++ rest)
    rw [item, append_assoc, hhead, flaw?]
    show (itemsOf depth 4 1 .tooManyItems (.fixed items.length) >>= _) = _
    rw [itemsOf_fixed hc.1, Nat.one_mul]
    -- Too deep, too many items, or as flawed as the items are.
    split
    · rfl
    split
    · rfl
    show (sequence fuel (depth + 1) maxCount .tooManyItems (.fixed items.length)
      (encodeAll items ++ rest) >>= _) = _
    rw [sequence_encodeAll items hc.2 rest hitems]
    cases flawIn? (depth + 1) items <;> rfl
  | map pairs, hc, fuel, depth, rest, hfuel => by
    rw [encode] at hfuel ⊢
    obtain ⟨fuel, rfl, hpairs⟩ := exists_fuel hfuel
    obtain ⟨info, hhead, -⟩ := readHead_head (by decide : 5 < 8) (Nat.lt_trans hc.1 (by decide))
      (by omega) (encodePairs pairs ++ rest)
    rw [item, append_assoc, hhead, flaw?]
    show (itemsOf depth 5 2 .tooManyPairs (.fixed pairs.length) >>= _) = _
    rw [itemsOf_fixed hc.1]
    split
    · rfl
    split
    · rfl
    show (sequence fuel (depth + 1) (2 * maxCount + 1) .tooManyPairs (.fixed (2 * pairs.length))
      (encodePairs pairs ++ rest) >>= _) = _
    rw [sequence_encodePairs pairs hc.2 rest hpairs]
    cases flawInPairs? (depth + 1) pairs with
    | some f => rfl
    | none =>
      show (pairUp (inRow pairs) >>= _) = _
      rw [pairUp_inRow]
      rfl
  | tag n c, hc, fuel, depth, rest, hfuel => hc.elim
  | simple n, hc, fuel, depth, rest, hfuel => by
    rw [Plain] at hc
    rw [encode, ← append_nil (head 7 n)] at hfuel ⊢
    obtain ⟨fuel, rfl, -⟩ := exists_fuel hfuel
    obtain ⟨info, hhead, hinfo⟩ := readHead_head (by decide : 7 < 8) (by omega) (fun _ => hc) rest
    rw [append_nil, item, hhead]
    show Except.ok (if info ≤ 24 then Cbor.simple n else _, rest) = _
    rw [if_pos (hinfo rfl)]
    rfl
  | float w, hc, fuel, depth, rest, hfuel => hc.elim

/-- The items of an array. -/
theorem sequence_encodeAll : (is : List Cbor) → AllPlain is →
    ∀ {fuel depth most : Nat} {flaw : Flaw} (rest : Text), 2 * (encodeAll is).length + 1 ≤ fuel →
      sequence fuel depth most flaw (.fixed is.length) (encodeAll is ++ rest) =
        unflawed (flawIn? depth is) (is, rest)
  | [], _, fuel, depth, most, flaw, rest, hfuel => sequence_zero (by omega)
  | i :: is, hi, fuel, depth, most, flaw, rest, hfuel => by
    rw [encodeAll, length_append] at hfuel
    have hpos := length_encode_pos i hi.1
    obtain ⟨fuel, rfl⟩ := Nat.exists_eq_add_one_of_ne_zero (show fuel ≠ 0 by omega)
    rw [encodeAll, append_assoc, length_cons, sequence_succ (item_encode i hi.1 _ (by omega)),
      sequence_encodeAll is hi.2 rest (by omega), flawIn?]
    cases flaw? depth i <;> cases flawIn? depth is <;> rfl

/-- The keys and values of a map. -/
theorem sequence_encodePairs : (ps : List (Cbor × Cbor)) → PairsPlain ps →
    ∀ {fuel depth most : Nat} {flaw : Flaw} (rest : Text), 2 * (encodePairs ps).length + 1 ≤ fuel →
      sequence fuel depth most flaw (.fixed (2 * ps.length)) (encodePairs ps ++ rest) =
        unflawed (flawInPairs? depth ps) (inRow ps, rest)
  | [], _, fuel, depth, most, flaw, rest, hfuel => sequence_zero (by omega)
  | (k, v) :: ps, hps, fuel, depth, most, flaw, rest, hfuel => by
    rw [encodePairs, length_append, length_append] at hfuel
    have hk := length_encode_pos k hps.1
    have hv := length_encode_pos v hps.2.1
    obtain ⟨fuel, rfl⟩ : ∃ fuel', fuel = fuel' + 1 + 1 := ⟨fuel - 2, by omega⟩
    have hkey : item (fuel + 1) depth (encode k ++ (encode v ++ (encodePairs ps ++ rest))) = _ :=
      item_encode k hps.1 _ (by omega)
    have hvalue : item fuel depth (encode v ++ (encodePairs ps ++ rest)) = _ :=
      item_encode v hps.2.1 _ (by omega)
    rw [encodePairs, append_assoc, append_assoc, length_cons,
      show 2 * (ps.length + 1) = 2 * ps.length + 1 + 1 by omega, sequence_succ hkey,
      sequence_succ hvalue, sequence_encodePairs ps hps.2.2 rest (by omega), flawInPairs?]
    cases flaw? depth k <;> cases flaw? depth v <;> cases flawInPairs? depth ps <;> rfl

end

/-- What is read where an item was written. -/
theorem decode_encode {c : Cbor} (hc : c.Plain) :
    decode (encode c) = unflawed (c.flaw? 0) c := by
  have hitem : item (2 * (encode c).length + 2) 0 (encode c ++ []) = _ :=
    item_encode c hc [] (by omega)
  have hne : (encode c).isEmpty = false := by
    rw [isEmpty_eq_false_iff, ← length_pos_iff]
    exact length_encode_pos c hc
  rw [append_nil] at hitem
  rw [decode, hne, hitem]
  cases c.flaw? 0 <;> rfl

end Cbor

end Foolscap
