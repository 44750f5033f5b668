/-
# Base58

`DecodeBase58`, `EncodeBase58` and the two functions with a checksum (`libs/server/base58.cpp`).  A string
is a list of bytes without the terminator.  The buffers `b256` and `b58` are kept in the order in which
the loops go over them, from `rbegin()` to `rend()`.

The counter of the zeroes in front is an `int`: a run of `2 ^ 31` of them is the only thing that the
functions cannot count.

* `encodeBase58_eq`, `decodeBase58_eq` : the result of each function, as a numeral of a number;
* `roundTrips_iff` : when the functions undo each other.
-/
import Hub.ByteCodec
import Hub.RadixConversion
import Hub.Transaction
import Mathlib.Data.List.GetD

namespace Base58

open ByteCodec

/-- What keeps a function from returning. -/
inductive Fault where
  /-- `assert(carry == 0)` fails. -/
  | carryLost
  /-- `zeroes++` overflows. -/
  | zeroesOverflow
  deriving DecidableEq, Repr

/-! ## The code -/

/-- `pszBase58`. -/
def pszBase58 : List UInt8 :=
  "123456789ABCDEFGHJKLMNPQRSTUVWXYZabcdefghijkmnopqrstuvwxyz".toList.map fun c =>
    UInt8.ofNat c.toNat

/-- `'1'`. -/
def one : UInt8 := 49

/-- `isspace`. -/
def isspace (ch : UInt8) : Bool := ch == 32 || decide (9 ≤ ch ∧ ch ≤ 13)

/-- `c_str`: what stands before the first `NUL`. -/
def cStr (str : List UInt8) : List UInt8 := str.takeWhile (· ≠ 0)

/-- The loop that counts the bytes `zero` in front, in an `int`. -/
def countZeroes (zero : UInt8) (s : List UInt8) : Except Fault ℕ :=
  if (s.takeWhile (· = zero)).length < 2 ^ 31 then .ok (s.takeWhile (· = zero)).length
  else .error .zeroesOverflow

/-- The loop of `DecodeBase58` over the characters: what follows them, and the buffer.  Nothing is
returned for a character that does not belong to the alphabet. -/
def decodeLoop : List UInt8 → List ℕ → Except Fault (Option (List UInt8 × List ℕ))
  | [], b256 => .ok (some ([], b256))
  | ch :: psz, b256 =>
    if isspace ch then .ok (some (ch :: psz, b256))
    else if ch ∈ pszBase58 then
      if (Radix.mulAdd 256 58 (pszBase58.idxOf ch) b256).2 = 0 then
        decodeLoop psz (Radix.mulAdd 256 58 (pszBase58.idxOf ch) b256).1
      else .error .carryLost
    else .ok none

/-- `DecodeBase58`; nothing is decoded where it returns `false`. -/
def decodeBase58 (psz : List UInt8) : Except Fault (Option (List UInt8)) := do
  let psz := psz.dropWhile isspace
  let zeroes ← countZeroes one psz
  let psz := psz.dropWhile (· = one)
  match ← decodeLoop psz (List.replicate (psz.length * 733 / 1000 + 1) 0) with
  | none => pure none
  | some (psz, b256) =>
    if psz.dropWhile isspace ≠ [] then pure none
    else
      let it := b256.reverse.dropWhile (· = 0)
      pure (some (List.replicate zeroes 0 ++ it.map UInt8.ofNat))

/-- `DecodeBase58`, of a `std::string`. -/
def decodeBase58Str (str : List UInt8) : Except Fault (Option (List UInt8)) :=
  decodeBase58 (cStr str)

/-- The loop of `EncodeBase58` over the bytes. -/
def encodeLoop : List UInt8 → List ℕ → Except Fault (List ℕ)
  | [], b58 => .ok b58
  | ch :: p, b58 =>
    if (Radix.mulAdd 58 256 ch.toNat b58).2 = 0 then
      encodeLoop p (Radix.mulAdd 58 256 ch.toNat b58).1
    else .error .carryLost

/-- `EncodeBase58`. -/
def encodeBase58 (vch : List UInt8) : Except Fault (List UInt8) := do
  let zeroes ← countZeroes 0 vch
  let p := vch.dropWhile (· = 0)
  let b58 ← encodeLoop p (List.replicate (p.length * 138 / 100 + 1) 0)
  let it := b58.reverse.dropWhile (· = 0)
  pure (List.replicate zeroes one ++ it.map fun d => pszBase58.getD d 0)

variable (Hash : List UInt8 → Uint256)

/-- The four bytes of the checksum. -/
def checksum (vch : List UInt8) : List UInt8 := (leBytes 32 (Hash vch).toNat).take 4

/-- `EncodeBase58Check`. -/
def encodeBase58Check (vchIn : List UInt8) : Except Fault (List UInt8) :=
  encodeBase58 (vchIn ++ checksum Hash vchIn)

/-- `DecodeBase58Check`; nothing is decoded where it returns `false`. -/
def decodeBase58Check (str : List UInt8) : Except Fault (Option (List UInt8)) := do
  match ← decodeBase58Str str with
  | none => pure none
  | some vchRet =>
    if vchRet.length < 4 then pure none
    else if checksum Hash (vchRet.take (vchRet.length - 4)) ≠ vchRet.drop (vchRet.length - 4) then
      pure none
    else pure (some (vchRet.take (vchRet.length - 4)))

variable {Hash}

/-! ## The alphabet -/

theorem length_pszBase58 : pszBase58.length = 58 := by decide

theorem nodup_pszBase58 : pszBase58.Nodup := by decide

/-- The characters of the digits. -/
def charOf (d : ℕ) : UInt8 := pszBase58.getD d 0

theorem charOf_idxOf {ch : UInt8} (h : ch ∈ pszBase58) : charOf (pszBase58.idxOf ch) = ch := by
  have hlt := List.idxOf_lt_length_iff.mpr h
  rw [charOf, List.getD_eq_getElem _ _ hlt, List.getElem_idxOf hlt]

theorem charOf_mem {d : ℕ} (h : d < 58) : charOf d ∈ pszBase58 := by
  rw [charOf, List.getD_eq_getElem _ _ (by rw [length_pszBase58]; exact h)]
  exact List.getElem_mem _

theorem idxOf_charOf {d : ℕ} (h : d < 58) : pszBase58.idxOf (charOf d) = d := by
  rw [charOf, List.getD_eq_getElem _ _ (by rw [length_pszBase58]; exact h)]
  exact nodup_pszBase58.idxOf_getElem d _

theorem idxOf_lt {ch : UInt8} (h : ch ∈ pszBase58) : pszBase58.idxOf ch < 58 := by
  have hlt := List.idxOf_lt_length_iff.mpr h
  rwa [length_pszBase58] at hlt

theorem idxOf_one : pszBase58.idxOf one = 0 := by decide

theorem one_mem : one ∈ pszBase58 := by decide

/-- No character of the alphabet is white space, and none is `NUL`. -/
theorem not_isspace_of_mem : ∀ ch ∈ pszBase58, isspace ch = false ∧ ch ≠ 0 := by
  have hall : pszBase58.all (fun ch => !isspace ch && ch != 0) = true := by decide
  intro ch hch
  simpa using List.all_eq_true.mp hall ch hch

/-! ## The loops -/

/-- The estimate of `DecodeBase58`: `58 ^ 71 ≤ 256 ^ 52`, and `52 / 71` is no more than `0.733`. -/
theorem room_decode (n : ℕ) : Radix.Room 256 58 n (List.replicate (n * 733 / 1000 + 1) 0) := by
  apply Radix.room_replicate
  exact Radix.pow_lt_pow_of_ratio (p := 52) (q := 71) (by decide) (by decide) (by decide)
    (by norm_num) (by decide) n

/-- The estimate of `EncodeBase58`: `256 ^ 8 ≤ 58 ^ 11`, and `11 / 8` is no more than `1.38`. -/
theorem room_encode (n : ℕ) : Radix.Room 58 256 n (List.replicate (n * 138 / 100 + 1) 0) := by
  apply Radix.room_replicate
  exact Radix.pow_lt_pow_of_ratio (p := 11) (q := 8) (by decide) (by decide) (by decide)
    (by norm_num) (by decide) n

/-- **The loop of the encoder** brings the bytes into the buffer, and no carry is lost. -/
theorem encodeLoop_of_room {p : List UInt8} {b58 : List ℕ} (hroom : Radix.Room 58 256 p.length b58)
    (hlt : ∀ d ∈ b58, d < 58) :
    ∃ b58', encodeLoop p b58 = .ok b58' ∧ (∀ d ∈ b58', d < 58) ∧
      Nat.ofDigits 58 b58' =
        Nat.ofDigits 256 (p.map UInt8.toNat).reverse + 256 ^ p.length * Nat.ofDigits 58 b58 := by
  induction p generalizing b58 with
  | nil =>
    refine ⟨b58, rfl, hlt, ?_⟩
    rw [List.map_nil, List.reverse_nil, Nat.ofDigits_nil, List.length_nil, pow_zero, Nat.one_mul,
      Nat.zero_add]
  | cons ch p ih =>
    obtain ⟨hzero, hvalue, hroom'⟩ := Radix.mulAdd_of_room hroom ch.toNat_lt
    obtain ⟨b58', hrun, hlt', hvalue'⟩ :=
      ih hroom' (Radix.lt_of_mem_mulAdd (by decide) ch.toNat b58)
    refine ⟨b58', ?_, hlt', ?_⟩
    · rw [encodeLoop, if_pos hzero]
      exact hrun
    · rw [hvalue', hvalue, List.map_cons, Nat.ofDigits_reverse_cons, List.length_map,
        List.length_cons]
      ring

/-- What a list starts with, when it is not empty, is white space. -/
def StartsBlank (rest : List UInt8) : Prop := ∀ ch psz, rest = ch :: psz → isspace ch = true

/-- **The loop of the decoder** on a word of the alphabet. -/
theorem decodeLoop_word {word rest : List UInt8} {b256 : List ℕ}
    (hroom : Radix.Room 256 58 word.length b256) (hlt : ∀ d ∈ b256, d < 256)
    (hword : ∀ ch ∈ word, ch ∈ pszBase58) (hrest : StartsBlank rest) :
    ∃ b256', decodeLoop (word ++ rest) b256 = .ok (some (rest, b256')) ∧
      (∀ d ∈ b256', d < 256) ∧
      Nat.ofDigits 256 b256' =
        Nat.ofDigits 58 (word.map pszBase58.idxOf).reverse +
          58 ^ word.length * Nat.ofDigits 256 b256 := by
  induction word generalizing b256 with
  | nil =>
    refine ⟨b256, ?_, hlt, ?_⟩
    · cases rest with
      | nil => rfl
      | cons ch psz => rw [List.nil_append, decodeLoop, if_pos (hrest ch psz rfl)]
    · rw [List.map_nil, List.reverse_nil, Nat.ofDigits_nil, List.length_nil, pow_zero, Nat.one_mul,
        Nat.zero_add]
  | cons ch word ih =>
    have hmem := hword ch List.mem_cons_self
    obtain ⟨hzero, hvalue, hroom'⟩ := Radix.mulAdd_of_room hroom (idxOf_lt hmem)
    obtain ⟨b256', hrun, hlt', hvalue'⟩ :=
      ih hroom' (Radix.lt_of_mem_mulAdd (by decide) _ b256)
        (fun c hc => hword c (List.mem_cons_of_mem _ hc))
    refine ⟨b256', ?_, hlt', ?_⟩
    · rw [List.cons_append, decodeLoop, if_neg (by rw [(not_isspace_of_mem ch hmem).1]; decide),
        if_pos hmem, if_pos hzero]
      exact hrun
    · rw [hvalue', hvalue, List.map_cons, Nat.ofDigits_reverse_cons, List.length_map,
        List.length_cons]
      ring

/-- The loop of the decoder returns nothing, or goes over a word of the alphabet. -/
theorem decodeLoop_cases (psz : List UInt8) {b256 : List ℕ}
    (hroom : Radix.Room 256 58 psz.length b256) :
    decodeLoop psz b256 = .ok none ∨
      ∃ word rest, psz = word ++ rest ∧ (∀ ch ∈ word, ch ∈ pszBase58) ∧ StartsBlank rest := by
  induction psz generalizing b256 with
  | nil => exact .inr ⟨[], [], rfl, by simp, by rintro ch psz ⟨⟩⟩
  | cons ch psz ih =>
    by_cases hspace : isspace ch = true
    · refine .inr ⟨[], ch :: psz, rfl, by simp, ?_⟩
      rintro c rest ⟨⟩
      exact hspace
    · by_cases hmem : ch ∈ pszBase58
      · obtain ⟨hzero, -, hroom'⟩ := Radix.mulAdd_of_room hroom (idxOf_lt hmem)
        rw [decodeLoop, if_neg hspace, if_pos hmem, if_pos hzero]
        rcases ih hroom' with hnone | ⟨word, rest, rfl, hword, hrest⟩
        · exact .inl hnone
        · refine .inr ⟨ch :: word, rest, rfl, ?_, hrest⟩
          intro c hc
          rcases List.mem_cons.mp hc with rfl | hc
          · exact hmem
          · exact hword c hc
      · rw [decodeLoop, if_neg hspace, if_neg hmem]
        exact .inl rfl

/-! ## The results -/

/-- The characters for bytes of which the first is not zero. -/
def encodeWord (p : List UInt8) : List UInt8 :=
  (Nat.digits 58 (Nat.ofDigits 256 (p.map UInt8.toNat).reverse)).reverse.map charOf

/-- The bytes for characters of which the first is not `'1'`. -/
def decodeWord (word : List UInt8) : List UInt8 :=
  (Nat.digits 256 (Nat.ofDigits 58 (word.map pszBase58.idxOf).reverse)).reverse.map UInt8.ofNat

theorem countZeroes_replicate_append {zero : UInt8} {z : ℕ} {l : List UInt8}
    (h : l.head? ≠ some zero) :
    countZeroes zero (List.replicate z zero ++ l) =
      if z < 2 ^ 31 then .ok z else .error .zeroesOverflow := by
  rw [countZeroes, Radix.takeWhile_replicate_append z h, List.length_replicate]

/-- **What the encoder returns.** -/
theorem encodeBase58_eq {z : ℕ} {p : List UInt8} (h : p.head? ≠ some 0) :
    encodeBase58 (List.replicate z 0 ++ p) =
      if z < 2 ^ 31 then .ok (List.replicate z one ++ encodeWord p)
      else .error .zeroesOverflow := by
  obtain ⟨b58, hrun, hlt, hvalue⟩ := encodeLoop_of_room (room_encode p.length)
    (fun d hd => by rw [List.eq_of_mem_replicate hd]; decide)
  rw [Radix.ofDigits_replicate_zero, Nat.mul_zero, Nat.add_zero] at hvalue
  rw [encodeBase58, countZeroes_replicate_append h, Radix.dropWhile_replicate_append z h]
  split_ifs with hz
  · show (encodeLoop p _ >>= fun b58 => _) = _
    rw [hrun]
    show Except.ok _ = _
    rw [Radix.dropWhile_reverse (by decide) hlt, hvalue]
    rfl
  · rfl

/-- The encoder never loses a carry. -/
theorem encodeBase58_ne (vch : List UInt8) : encodeBase58 vch ≠ .error .carryLost := by
  rw [← Radix.replicate_append_dropWhile 0 vch, encodeBase58_eq (Radix.head?_dropWhile_ne 0 vch)]
  split_ifs
  · intro h
    cases h
  · intro h
    cases h

/-- The parts of a string that the decoder accepts, behind the white space in front. -/
structure Parts (psz : List UInt8) (z : ℕ) (word trail : List UInt8) : Prop where
  split : psz.dropWhile isspace = List.replicate z one ++ (word ++ trail)
  head : (word ++ trail).head? ≠ some one
  word_mem : ∀ ch ∈ word, ch ∈ pszBase58
  trail_blank : ∀ ch ∈ trail, isspace ch = true

theorem startsBlank_of_forall {trail : List UInt8} (h : ∀ ch ∈ trail, isspace ch = true) :
    StartsBlank trail := by
  rintro ch psz rfl
  exact h ch List.mem_cons_self

/-- **What the decoder returns.** -/
theorem decodeBase58_eq {psz word trail : List UInt8} {z : ℕ} (h : Parts psz z word trail) :
    decodeBase58 psz =
      if z < 2 ^ 31 then .ok (some (List.replicate z 0 ++ decodeWord word))
      else .error .zeroesOverflow := by
  have hroom := (room_decode (word ++ trail).length).mono (by decide)
    (le_of_le_of_eq (Nat.le_add_right word.length trail.length) List.length_append.symm)
  obtain ⟨b256, hrun, hlt, hvalue⟩ := decodeLoop_word hroom
    (fun d hd => by rw [List.eq_of_mem_replicate hd]; decide) h.word_mem
    (startsBlank_of_forall h.trail_blank)
  rw [Radix.ofDigits_replicate_zero, Nat.mul_zero, Nat.add_zero] at hvalue
  rw [decodeBase58]
  simp only
  rw [h.split, countZeroes_replicate_append h.head, Radix.dropWhile_replicate_append z h.head]
  split_ifs with hz
  · show (decodeLoop (word ++ trail) _ >>= fun r => _) = _
    rw [hrun]
    show (if trail.dropWhile isspace ≠ [] then _ else _) = _
    rw [if_neg (not_not.mpr (List.dropWhile_eq_nil_iff.mpr h.trail_blank)),
      Radix.dropWhile_reverse (by decide) hlt, hvalue]
    rfl
  · rfl

/-- The decoder returns `false`, cannot count the zeroes, or has a string of the accepted form. -/
theorem decodeBase58_cases (psz : List UInt8) :
    decodeBase58 psz = .error .zeroesOverflow ∨ decodeBase58 psz = .ok none ∨
      ∃ z word trail, Parts psz z word trail := by
  set t := psz.dropWhile isspace with ht
  rcases decodeLoop_cases (t.dropWhile (· = one)) (room_decode _) with hnone | hparts
  · rw [decodeBase58]
    simp only
    rw [← ht, countZeroes]
    split_ifs
    · refine .inr (.inl ?_)
      show (decodeLoop (t.dropWhile (· = one)) _ >>= fun r => _) = _
      rw [hnone]
      rfl
    · exact .inl rfl
  · obtain ⟨word, rest, hsplit, hword, hrest⟩ := hparts
    have hhead := Radix.head?_dropWhile_ne one t
    have hwhole := Radix.replicate_append_dropWhile one t
    rw [hsplit] at hhead hwhole
    by_cases hblank : rest.dropWhile isspace = []
    · exact .inr (.inr ⟨_, word, rest, ht.symm.trans hwhole.symm, hhead, hword,
        List.dropWhile_eq_nil_iff.mp hblank⟩)
    · -- something follows the white space behind the word
      have hroom := (room_decode (word ++ rest).length).mono (by decide)
        (le_of_le_of_eq (Nat.le_add_right word.length rest.length) List.length_append.symm)
      obtain ⟨b256, hrun, -, -⟩ := decodeLoop_word hroom
        (fun d hd => by rw [List.eq_of_mem_replicate hd]; decide) hword hrest
      rw [decodeBase58]
      simp only
      rw [← ht, countZeroes, hsplit]
      split_ifs
      · refine .inr (.inl ?_)
        show (decodeLoop (word ++ rest) _ >>= fun r => _) = _
        rw [hrun]
        show (if rest.dropWhile isspace ≠ [] then _ else _) = _
        rw [if_pos hblank]
        rfl
      · exact .inl rfl

/-- The decoder never loses a carry. -/
theorem decodeBase58_ne (psz : List UInt8) : decodeBase58 psz ≠ .error .carryLost := by
  rcases decodeBase58_cases psz with h | h | ⟨z, word, trail, h⟩
  · rw [h]
    intro h
    cases h
  · rw [h]
    intro h
    cases h
  · rw [decodeBase58_eq h]
    split_ifs
    · intro h
      cases h
    · intro h
      cases h

/-! ## Round trips -/

/-- The bytes of a numeral in base 256. -/
theorem map_toNat_map_ofNat {ds : List ℕ} (h : ∀ d ∈ ds, d < 256) :
    (ds.map UInt8.ofNat).map UInt8.toNat = ds := by
  rw [List.map_map]
  conv_rhs => rw [← List.map_id ds]
  apply List.map_congr_left
  intro d hd
  exact UInt8.toNat_ofNat_of_lt' (h d hd)

theorem lt_of_mem_reverse_digits {b n : ℕ} (hb : 1 < b) :
    ∀ d ∈ (Nat.digits b n).reverse, d < b :=
  fun _ hd => Nat.digits_lt_base hb (List.mem_reverse.mp hd)

theorem map_idxOf_map_charOf {ds : List ℕ} (h : ∀ d ∈ ds, d < 58) :
    (ds.map charOf).map pszBase58.idxOf = ds := by
  rw [List.map_map]
  conv_rhs => rw [← List.map_id ds]
  apply List.map_congr_left
  intro d hd
  exact idxOf_charOf (h d hd)

/-- The first digit of a numeral is not zero, and neither is its image. -/
theorem head?_map_ne {α : Type} {f : ℕ → α} {a : α} {ds : List ℕ} (hhead : ds.head? ≠ some 0)
    (hf : ∀ d ∈ ds, f d = a → d = 0) : (ds.map f).head? ≠ some a := by
  cases ds with
  | nil => simp
  | cons d ds =>
    intro h
    apply hhead
    rw [List.head?_cons, hf d List.mem_cons_self (Option.some.inj h)]

theorem head?_encodeWord (p : List UInt8) : (encodeWord p).head? ≠ some one := by
  apply head?_map_ne (Radix.head?_reverse_digits_ne _)
  intro d hd h
  rw [← idxOf_charOf (lt_of_mem_reverse_digits (by decide) d hd), h, idxOf_one]

theorem head?_decodeWord (word : List UInt8) : (decodeWord word).head? ≠ some 0 := by
  apply head?_map_ne (Radix.head?_reverse_digits_ne _)
  intro d hd h
  rw [← UInt8.toNat_ofNat_of_lt' (lt_of_mem_reverse_digits (by decide) d hd), h]
  rfl

theorem mem_of_mem_encodeWord (p : List UInt8) : ∀ ch ∈ encodeWord p, ch ∈ pszBase58 := by
  intro ch hch
  obtain ⟨d, hd, rfl⟩ := List.mem_map.mp hch
  exact charOf_mem (lt_of_mem_reverse_digits (by decide) d hd)

/-- Decoding the characters of some bytes. -/
theorem decodeWord_encodeWord {p : List UInt8} (h : p.head? ≠ some 0) :
    decodeWord (encodeWord p) = p := by
  have hhead : (p.map UInt8.toNat).head? ≠ some 0 := by
    cases p with
    | nil => simp
    | cons ch p =>
      intro hzero
      apply h
      rw [List.head?_cons, UInt8.toNat_inj.mp (Option.some.inj hzero : ch.toNat = (0 : UInt8).toNat)]
  have hlt : ∀ d ∈ p.map UInt8.toNat, d < 256 := by
    intro d hd
    obtain ⟨ch, -, rfl⟩ := List.mem_map.mp hd
    exact ch.toNat_lt
  rw [decodeWord, encodeWord, map_idxOf_map_charOf (lt_of_mem_reverse_digits (by decide)),
    List.reverse_reverse, Nat.ofDigits_digits, Radix.reverse_digits_ofDigits (by decide) hlt hhead,
    List.map_map]
  conv_rhs => rw [← List.map_id p]
  apply List.map_congr_left
  intro ch _
  exact UInt8.ofNat_toNat

/-- Encoding the bytes of some characters. -/
theorem encodeWord_decodeWord {word : List UInt8} (hword : ∀ ch ∈ word, ch ∈ pszBase58)
    (h : word.head? ≠ some one) : encodeWord (decodeWord word) = word := by
  have hhead : (word.map pszBase58.idxOf).head? ≠ some 0 := by
    cases word with
    | nil => simp
    | cons ch word =>
      intro hzero
      apply h
      rw [List.head?_cons, ← charOf_idxOf (hword ch List.mem_cons_self),
        (Option.some.inj hzero : pszBase58.idxOf ch = 0)]
      rfl
  have hlt : ∀ d ∈ word.map pszBase58.idxOf, d < 58 := by
    intro d hd
    obtain ⟨ch, hch, rfl⟩ := List.mem_map.mp hd
    exact idxOf_lt (hword ch hch)
  rw [encodeWord, decodeWord, map_toNat_map_ofNat (lt_of_mem_reverse_digits (by decide)),
    List.reverse_reverse, Nat.ofDigits_digits, Radix.reverse_digits_ofDigits (by decide) hlt hhead,
    List.map_map]
  conv_rhs => rw [← List.map_id word]
  apply List.map_congr_left
  intro ch hch
  exact charOf_idxOf (hword ch hch)

/-- A string without the white space at both ends. -/
def trim (str : List UInt8) : List UInt8 := (str.dropWhile isspace).rdropWhile isspace

theorem rdropWhile_append_of_forall {α : Type} {p : α → Bool} {l r : List α}
    (hr : ∀ x ∈ r, p x = true) (hl : ∀ x ∈ l, p x = false) : (l ++ r).rdropWhile p = l := by
  induction r using List.reverseRecOn with
  | nil =>
    rw [List.append_nil, List.rdropWhile_eq_self_iff]
    intro hne
    rw [hl _ (List.getLast_mem hne)]
    decide
  | append_singleton r x ih =>
    rw [← List.append_assoc, List.rdropWhile_concat_pos p (l ++ r) x (hr x (by simp)),
      ih fun y hy => hr y (List.mem_append_left _ hy)]

theorem forall_mem_replicate_one_append {word : List UInt8} (z : ℕ)
    (hword : ∀ ch ∈ word, ch ∈ pszBase58) :
    ∀ ch ∈ List.replicate z one ++ word, ch ∈ pszBase58 := by
  intro ch hch
  rcases List.mem_append.mp hch with hone | hmem
  · rw [List.eq_of_mem_replicate hone]
    exact one_mem
  · exact hword ch hmem

theorem Parts.trim_eq {psz word trail : List UInt8} {z : ℕ} (h : Parts psz z word trail) :
    trim psz = List.replicate z one ++ word := by
  rw [trim, h.split, ← List.append_assoc]
  apply rdropWhile_append_of_forall h.trail_blank
  intro ch hch
  exact (not_isspace_of_mem ch (forall_mem_replicate_one_append z h.word_mem ch hch)).1

/-- A string of the alphabet has no white space around it, and no `NUL`. -/
theorem parts_of_word {z : ℕ} {word : List UInt8} (hword : ∀ ch ∈ word, ch ∈ pszBase58)
    (hhead : word.head? ≠ some one) : Parts (List.replicate z one ++ word) z word [] where
  split := by
    rw [List.append_nil, List.dropWhile_eq_self_iff]
    intro hpos
    rw [(not_isspace_of_mem _ (forall_mem_replicate_one_append z hword _ (List.getElem_mem hpos))).1]
    decide
  head := by rwa [List.append_nil]
  word_mem := hword
  trail_blank := by simp

theorem cStr_of_not_mem {str : List UInt8} (h : 0 ∉ str) : cStr str = str := by
  rw [cStr, List.takeWhile_eq_self_iff]
  intro ch hch
  apply decide_eq_true
  rintro rfl
  exact h hch

/-- Decoding what the encoder returns. -/
theorem decodeBase58Str_encodeBase58 {vch str : List UInt8} (h : encodeBase58 vch = .ok str) :
    decodeBase58Str str = .ok (some vch) := by
  have hhead := Radix.head?_dropWhile_ne 0 vch
  rw [← Radix.replicate_append_dropWhile 0 vch, encodeBase58_eq hhead] at h
  split_ifs at h with hz
  cases h
  have hmem := mem_of_mem_encodeWord (vch.dropWhile (· = 0))
  have hparts := parts_of_word (z := (vch.takeWhile (· = 0)).length) hmem (head?_encodeWord _)
  rw [decodeBase58Str, cStr_of_not_mem, decodeBase58_eq hparts, if_pos hz,
    decodeWord_encodeWord hhead, Radix.replicate_append_dropWhile]
  intro hnul
  exact (not_isspace_of_mem 0 (forall_mem_replicate_one_append _ hmem 0 hnul)).2 rfl

/-- Encoding what the decoder returns. -/
theorem encodeBase58_of_decodeBase58 {psz vch : List UInt8} (h : decodeBase58 psz = .ok (some vch)) :
    encodeBase58 vch = .ok (trim psz) := by
  rcases decodeBase58_cases psz with herror | hnone | ⟨z, word, trail, hparts⟩
  · rw [herror] at h
    cases h
  · rw [hnone] at h
    cases h
  · rw [decodeBase58_eq hparts] at h
    split_ifs at h with hz
    cases h
    have hhead : word.head? ≠ some one := by
      intro hone
      apply hparts.head
      rw [List.head?_append, hone]
      rfl
    rw [encodeBase58_eq (head?_decodeWord word), if_pos hz,
      encodeWord_decodeWord hparts.word_mem hhead, hparts.trim_eq]

/-! ## The functions together -/

variable (Hash)

/-- The number of zero bytes in front. -/
def zeroes (vch : List UInt8) : ℕ := (vch.takeWhile (· = 0)).length

/-- The functions undo each other, on the bytes `vch` and on the string `str`. -/
structure RoundTrips (vch str : List UInt8) : Prop where
  decode_encode : ∃ enc, encodeBase58 vch = .ok enc ∧ decodeBase58Str enc = .ok (some vch)
  encode_decode : 0 ∉ str → ∀ dec, decodeBase58Str str = .ok (some dec) →
    encodeBase58 dec = .ok (trim str)
  encode_carry : encodeBase58 vch ≠ .error .carryLost
  decode_carry : decodeBase58Str str ≠ .error .carryLost
  check : ∃ enc, encodeBase58Check Hash vch = .ok enc ∧ decodeBase58Check Hash enc = .ok (some vch)

variable {Hash}

theorem encodeBase58_isOk_iff (vch : List UInt8) :
    (∃ enc, encodeBase58 vch = .ok enc) ↔ zeroes vch < 2 ^ 31 := by
  have hhead := Radix.head?_dropWhile_ne 0 vch
  rw [← Radix.replicate_append_dropWhile 0 vch, encodeBase58_eq hhead, zeroes,
    Radix.takeWhile_replicate_append _ hhead, List.length_replicate]
  constructor
  · rintro ⟨enc, h⟩
    split_ifs at h with hz
    exact hz
  · intro hz
    exact ⟨_, if_pos hz⟩

theorem zeroes_le_append (vch more : List UInt8) : zeroes vch ≤ zeroes (vch ++ more) := by
  rw [zeroes, zeroes, List.takeWhile_append]
  split_ifs with hall
  · rw [List.length_append]
    omega
  · exact le_refl _

theorem length_checksum (vch : List UInt8) : (checksum Hash vch).length = 4 := by
  rw [checksum, List.length_take, length_leBytes]
  rfl

/-- The checksum of the encoder passes the check of the decoder. -/
theorem decodeBase58Check_encodeBase58Check {vch enc : List UInt8}
    (h : encodeBase58Check Hash vch = .ok enc) :
    decodeBase58Check Hash enc = .ok (some vch) := by
  have hlen : (vch ++ checksum Hash vch).length - 4 = vch.length := by
    rw [List.length_append, length_checksum, Nat.add_sub_cancel]
  rw [decodeBase58Check, decodeBase58Str_encodeBase58 h]
  show (if (vch ++ checksum Hash vch).length < 4 then _ else _) = _
  rw [hlen, List.take_left, List.drop_left, if_neg (by rw [List.length_append, length_checksum]; omega),
    if_neg (not_not.mpr rfl)]
  rfl

variable (Hash)

/-- **The round trips** go through as long as the zeroes in front, of the bytes with their checksum,
fit into an `int`; the assertions hold at every length. -/
theorem roundTrips_iff (vch : List UInt8) :
    (∀ str, RoundTrips Hash vch str) ↔ zeroes (vch ++ checksum Hash vch) < 2 ^ 31 := by
  constructor
  · intro h
    obtain ⟨enc, henc, -⟩ := (h []).check
    exact (encodeBase58_isOk_iff _).mp ⟨enc, henc⟩
  · intro hz str
    obtain ⟨enc, henc⟩ := (encodeBase58_isOk_iff vch).mpr (lt_of_le_of_lt (zeroes_le_append _ _) hz)
    obtain ⟨encCheck, hcheck⟩ := (encodeBase58_isOk_iff _).mpr hz
    constructor
    · exact ⟨enc, henc, decodeBase58Str_encodeBase58 henc⟩
    · intro hnul dec hdec
      rw [decodeBase58Str, cStr_of_not_mem hnul] at hdec
      exact encodeBase58_of_decodeBase58 hdec
    · exact encodeBase58_ne vch
    · exact decodeBase58_ne (cStr str)
    · exact ⟨encCheck, hcheck, decodeBase58Check_encodeBase58Check hcheck⟩

/-- Two gigabytes of zeroes are not encoded. -/
theorem not_roundTrips_zeroes :
    ¬ ∀ vch str : List UInt8, RoundTrips (fun _ => 1) vch str := by
  intro h
  obtain ⟨enc, henc, -⟩ := (h (List.replicate (2 ^ 31) 0) []).decode_encode
  have hlt := (encodeBase58_isOk_iff _).mp ⟨enc, henc⟩
  have hrun := Radix.takeWhile_replicate_append (a := (0 : UInt8)) (l := []) (2 ^ 31) (by simp)
  rw [List.append_nil] at hrun
  rw [zeroes, hrun, List.length_replicate] at hlt
  exact lt_irrefl _ hlt

example : encodeBase58 [0, 0, 0x61] = .ok [one, one, 50, 103] := by decide

end Base58
