/-
# Operations on a known stack

What the primitives of the interpreter do when the elements that they ask for are there, and
`OP_BIN2NUM` and `OP_NUM2BIN` as functions of the elements on top of the stack
(`libs/server/script/interpreter.cpp`).

Both operations put an element into its smallest form; `OP_NUM2BIN` then fills it up with zeros
and moves the sign to the new last byte, which does not change the value (`setVch_pad`).
-/
import Hub.ScriptNumCodec
import Hub.ScriptSafety

open ByteCodec Opcode Bytes Halting CScriptNum

namespace Script

/-! ## The primitives -/

section

variable {m : Machine} {vch : Bytes}

theorem stacktop_apply {i : ℤ} (h : at? m.stack i = some vch) : stacktop i m = .ok vch m := by
  rw [stacktop, bind_apply_ok (get_apply m), h]
  rfl

theorem popstack_apply {rest : List Bytes} (h : m.stack = vch :: rest) :
    popstack m = .ok () { m with stack := rest } := by
  have hne : m.stack ≠ [] := by
    rw [h]
    exact List.cons_ne_nil _ _
  rw [popstack, bind_apply_ok (get_apply m), bind_apply_ok (haltIf_apply_of_neg hne m), modify_apply, h]
  rfl

theorem setStacktop_apply {i : ℤ} (new : Bytes) (h : at? m.stack i = some vch) :
    setStacktop i new m = .ok () { m with stack := m.stack.set (-i - 1).toNat new } := by
  rw [setStacktop, bind_apply_ok (stacktop_apply h), modify_apply]

theorem require_apply {k : ℕ} {e : ScriptError} (h : k ≤ m.stack.length) :
    require k e m = .ok () m := by
  rw [require, bind_apply_ok (get_apply m)]
  exact haltIf_apply_of_neg (by omega) m

/-- The constructor of a number either throws or gives it. -/
theorem scriptNum_apply {flags : Flags} {n : ℕ} {bn : CScriptNum}
    (h : ofVch vch (flags.has verifyMinimalData) n = .ok bn) : scriptNum flags vch n m = .ok bn m := by
  unfold ofVch at h
  split_ifs at h with hlen hmin
  rw [scriptNum, bind_apply_ok (haltIf_apply_of_neg hlen m), bind_apply_ok (haltIf_apply_of_neg (by
    rintro ⟨hflag, hformat⟩
    exact hmin ⟨hflag, hformat⟩) m), pure_apply]
  cases h
  rfl

/-- A test that lets a run pass. -/
theorem failIf_bind_eq_ok {α : Type} {c : Prop} [Decidable c] {e : ScriptError} {x : Prog α}
    {a : α} {m' : Machine} : (failIf c e >>= fun _ => x) m = .ok a m' ↔ ¬ c ∧ x m = .ok a m' := by
  by_cases hc : c
  · rw [failIf, bind_apply_error (haltIf_apply_of_pos hc m)]
    constructor
    · intro h
      cases h
    · exact fun h => absurd hc h.1
  · rw [failIf, bind_apply_ok (haltIf_apply_of_neg hc m)]
    exact ⟨fun h => ⟨hc, h⟩, fun h => h.2⟩

/-- The same test at the end of a run. -/
theorem failIf_eq_ok {c : Prop} [Decidable c] {e : ScriptError} {m' : Machine} :
    failIf c e m = .ok () m' ↔ ¬ c ∧ m' = m := by
  by_cases hc : c
  · rw [failIf, haltIf_apply_of_pos hc]
    constructor
    · intro h
      cases h
    · exact fun h => absurd hc h.1
  · rw [failIf, haltIf_apply_of_neg hc]
    constructor
    · intro h
      cases h
      exact ⟨hc, rfl⟩
    · rintro ⟨-, rfl⟩
      rfl

end

/-! ## Filling up -/

theorem leNat_zeros (w : Bytes) (k : ℕ) : leNat (w ++ List.replicate k 0) = leNat w := by
  induction k with
  | zero => rw [List.replicate_zero, List.append_nil]
  | succ k ih =>
    rw [List.replicate_succ', ← List.append_assoc, leNat_append_singleton, ih]
    simp

/-- **Filling up does not change the value.** -/
theorem setVch_pad (rawnum : Bytes) (size : ℕ) : setVch (pad rawnum size) = setVch rawnum := by
  by_cases hnil : rawnum = []
  · have hpad : pad rawnum size = List.replicate (size - 1) 0 ++ [0] := by simp [pad, hnil]
    have hzero := leNat_zeros [] (size - 1)
    rw [List.nil_append] at hzero
    rw [hpad, setVch_append_of_nonneg (by decide), hzero, hnil]
    rfl
  · obtain ⟨w, b, rfl⟩ : ∃ w b, rawnum = w ++ [b] :=
      ⟨rawnum.dropLast, rawnum.getLast hnil, (List.dropLast_append_getLast hnil).symm⟩
    have hpad : pad (w ++ [b]) size = (w ++ [b &&& 0x7f]) ++
        List.replicate (size - 1 - (w ++ [b &&& 0x7f]).length) 0 ++ [b &&& 0x80] := by
      simp [pad, setBack]
    have hnat : leNat (w ++ [b &&& 0x7f]) = leNat w + 256 ^ w.length * (b.toNat % 128) := by
      rw [leNat_append_singleton, and_0x7f_toNat]
    have hb := b.toNat_lt
    rw [hpad]
    by_cases hbit : b &&& 0x80 = 0
    · have hlow := (and_signbit_eq_zero b).mp hbit
      rw [hbit, setVch_append_of_nonneg (by decide), leNat_zeros, hnat, setVch_append_of_nonneg hbit,
        Nat.mod_eq_of_lt hlow, show (0 : UInt8).toNat = 0 from rfl, Nat.mul_zero, Nat.add_zero]
    · have hhigh := (and_0x80_ne_zero b).mp hbit
      have hsign : ∀ b : UInt8, b &&& 0x80 ≠ 0 → b &&& 0x80 = 0x80 := by decide +kernel
      have hmod : b.toNat % 128 = b.toNat - 128 := by omega
      rw [hsign b hbit, setVch_append_of_neg (by decide), leNat_zeros, hnat, setVch_append_of_neg hbit,
        hmod, show (0x80 : UInt8).toNat - 128 = 0 from rfl, Nat.mul_zero, Nat.add_zero]

/-! ## The minimal encoding -/

/-- `w` is the shortest vector with the value of `v`. -/
def IsMinimalEncoding (w v : Bytes) : Prop :=
  setVch w = setVch v ∧ ∀ u, setVch u = setVch v → w.length ≤ u.length

theorem isMinimalEncoding_iff {w v : Bytes} :
    IsMinimalEncoding w v ↔ w = createSmallestFormat v := by
  have hvalue := setVch_createSmallestFormat v
  have hsmall : isSmallestFormat (createSmallestFormat v) (createSmallestFormat v).length = true := by
    rw [isSmallestFormat_createSmallestFormat]
    exact decide_eq_true le_rfl
  constructor
  · rintro ⟨hw, hleast⟩
    have hlen : w.length = (createSmallestFormat v).length :=
      le_antisymm (hleast _ hvalue) (length_le_of_isSmallestFormat hsmall (hvalue.trans hw.symm))
    by_cases hzero : setVch v = 0
    · have hnil := List.length_eq_zero_iff.mp (Nat.le_zero.mp (hleast [] hzero.symm))
      rw [hnil, List.length_nil] at hlen
      rw [hnil, List.length_eq_zero_iff.mp hlen.symm]
    · exact eq_of_length_eq hlen (hw.trans hvalue.symm) (by rw [hw]; exact hzero)
  · rintro rfl
    exact ⟨hvalue, fun u hu => length_le_of_isSmallestFormat hsmall (hvalue.trans hu.symm)⟩

/-- Vectors of one value have one smallest form. -/
theorem createSmallestFormat_congr {v w : Bytes} (h : setVch v = setVch w) :
    createSmallestFormat v = createSmallestFormat w := by
  rw [← isMinimalEncoding_iff, IsMinimalEncoding, ← h]
  exact isMinimalEncoding_iff.mpr rfl

/-! ## The operations -/

section

variable (crypto : Crypto) (checker : BaseSignatureChecker) (flags : Flags)
variable {m m' : Machine} {v sz : Bytes} {rest : List Bytes}

theorem bin2num_eq_ok (h : m.stack = v :: rest) : bin2num m = .ok () m' ↔
    (createSmallestFormat v).length ≤ 4 ∧ m' = { m with stack := createSmallestFormat v :: rest } := by
  have htop : at? m.stack (-1) = some v := by
    rw [h]
    rfl
  have hset : m.stack.set (-(-1 : ℤ) - 1).toNat (createSmallestFormat v) =
      createSmallestFormat v :: rest := by
    rw [h]
    rfl
  rw [bin2num, bind_apply_ok (require_apply (by rw [h]; simp)), bind_apply_ok (stacktop_apply htop),
    bind_apply_ok (setStacktop_apply _ htop), hset, failIf_eq_ok,
    isSmallestFormat_createSmallestFormat, not_not, decide_eq_true_iff]
  rfl

/-- The element that `OP_NUM2BIN` leaves. -/
def sized (v : Bytes) (size : ℕ) : Bytes :=
  if (createSmallestFormat v).length ≠ size then pad (createSmallestFormat v) size
  else createSmallestFormat v

theorem length_sized {size : ℕ} (h : (createSmallestFormat v).length ≤ size) :
    (sized v size).length = size := by
  unfold sized
  split_ifs with hne
  · exact length_pad (by omega)
  · exact not_not.mp hne

theorem setVch_sized (v : Bytes) (size : ℕ) : setVch (sized v size) = setVch v := by
  unfold sized
  split_ifs
  · rw [setVch_pad, setVch_createSmallestFormat]
  · exact setVch_createSmallestFormat v

/-- A number of four bytes is an `int`. -/
theorem getint_of_ofVch {s : ℤ} {fRequireMinimal : Bool} (h : ofVch sz fRequireMinimal 4 = .ok ⟨s⟩) :
    getint ⟨s⟩ = s ∧ -2 ^ 31 < s ∧ s < 2 ^ 31 := by
  unfold ofVch at h
  split_ifs at h with hlen
  have hs : setVch sz = s := CScriptNum.mk.inj (Except.ok.inj h)
  have hlt := natAbs_setVch_lt (Nat.le_of_not_lt hlen) (by omega)
  rw [hs] at hlt
  have hrange : -2 ^ 31 < s ∧ s < 2 ^ 31 := by
    constructor <;> omega
  refine ⟨?_, hrange⟩
  rw [getint, if_neg (by show ¬ s > _; omega), if_neg (by show ¬ s < _; omega)]

theorem num2bin_eq_ok (h : m.stack = sz :: v :: rest) {s : ℤ}
    (hs : ofVch sz (flags.has verifyMinimalData) 4 = .ok ⟨s⟩) : num2bin flags m = .ok () m' ↔
    (0 ≤ s ∧ s ≤ 520 ∧ (createSmallestFormat v).length ≤ s) ∧
      m' = { m with stack := sized v s.toNat :: rest } := by
  obtain ⟨hint, hlow, hhigh⟩ := getint_of_ofVch hs
  have htop : at? m.stack (-1) = some sz := by
    rw [h]
    rfl
  have hnum : scriptNum flags sz defaultMaxNumSize m = .ok ⟨s⟩ m := scriptNum_apply hs
  have hnext : at? ({ m with stack := v :: rest } : Machine).stack (-1) = some v := rfl
  rw [num2bin, bind_apply_ok (require_apply (by rw [h]; simp)), bind_apply_ok (stacktop_apply htop),
    bind_apply_ok hnum]
  dsimp only
  rw [hint, failIf_bind_eq_ok, bind_apply_ok (popstack_apply h), bind_apply_ok (stacktop_apply hnext),
    bind_apply_ok (setStacktop_apply _ hnext), failIf_bind_eq_ok]
  have hsize : ¬ toUInt64 s > maxScriptElementSize ↔ 0 ≤ s ∧ s ≤ 520 := by
    unfold toUInt64 maxScriptElementSize
    omega
  have hend : doIf ((createSmallestFormat v).length ≠ toUInt64 s)
      (setStacktop (-1) (pad (createSmallestFormat v) (toUInt64 s)))
        { m with stack := (v :: rest).set (-(-1 : ℤ) - 1).toNat (createSmallestFormat v) } =
      .ok () { m with stack := sized v (toUInt64 s) :: rest } := by
    unfold sized doIf
    split_ifs with hne
    · rfl
    · rfl
  rw [hend, hsize]
  constructor
  · rintro ⟨⟨h0, h520⟩, hlen, heq⟩
    have htoNat : toUInt64 s = s.toNat := by
      unfold toUInt64
      omega
    cases heq
    exact ⟨⟨h0, h520, by omega⟩, by rw [htoNat]⟩
  · rintro ⟨⟨h0, h520, hlen⟩, rfl⟩
    have htoNat : toUInt64 s = s.toNat := by
      unfold toUInt64
      omega
    exact ⟨⟨h0, h520⟩, by omega, by rw [htoNat]⟩

/-- The two operations, in an instruction that is executed. -/
theorem execInstruction_numbers :
    execInstruction crypto checker flags true opNum2Bin [] = num2bin flags ∧
      execInstruction crypto checker flags true opBin2Num [] = bin2num := by
  constructor
  · rw [execInstruction, if_neg fun h => absurd h.2 (by decide), if_pos (.inl rfl)]
    rfl
  · rw [execInstruction, if_neg fun h => absurd h.2 (by decide), if_pos (.inl rfl)]
    rfl

/-- **`OP_NUM2BIN` and `OP_BIN2NUM`.**  The first gives an element of the size that is asked for,
if the minimal encoding is not longer, and keeps the value; the second gives the minimal encoding,
if it has at most four bytes; one after the other they give the minimal encoding. -/
theorem num2bin_bin2num {w : Bytes} (hw : IsMinimalEncoding w v) :
    (∀ (m : Machine) (sz : Bytes) (s : ℤ), m.stack = sz :: v :: rest →
      ofVch sz (flags.has verifyMinimalData) 4 = .ok ⟨s⟩ →
      ((∃ m', execInstruction crypto checker flags true opNum2Bin [] m = .ok () m') ↔
        0 ≤ s ∧ s ≤ 520 ∧ w.length ≤ s) ∧
      ∀ m', execInstruction crypto checker flags true opNum2Bin [] m = .ok () m' →
        (∃ x, m' = { m with stack := x :: rest } ∧ x.length = s ∧ setVch x = setVch v) ∧
        ∀ m'', execInstruction crypto checker flags true opBin2Num [] m' = .ok () m'' →
          m'' = { m with stack := w :: rest }) ∧
    ∀ m : Machine, m.stack = v :: rest →
      ((∃ m', execInstruction crypto checker flags true opBin2Num [] m = .ok () m') ↔
        w.length ≤ 4) ∧
      ∀ m', execInstruction crypto checker flags true opBin2Num [] m = .ok () m' →
        m' = { m with stack := w :: rest } := by
  obtain rfl := isMinimalEncoding_iff.mp hw
  rw [(execInstruction_numbers crypto checker flags).1, (execInstruction_numbers crypto checker flags).2]
  refine ⟨fun m sz s hstack hs => ⟨?_, fun m' hm' => ?_⟩, fun m hstack => ⟨?_, fun m' hm' => ?_⟩⟩
  · simp only [num2bin_eq_ok flags hstack hs]
    exact ⟨fun ⟨_, h, _⟩ => h, fun h => ⟨_, h, rfl⟩⟩
  · obtain ⟨⟨h0, h520, hlen⟩, rfl⟩ := (num2bin_eq_ok flags hstack hs).mp hm'
    refine ⟨⟨_, rfl, ?_, setVch_sized v _⟩, fun m'' hm'' => ?_⟩
    · rw [length_sized (by omega)]
      omega
    · obtain ⟨-, rfl⟩ := (bin2num_eq_ok rfl).mp hm''
      rw [createSmallestFormat_congr (setVch_sized v s.toNat)]
  · simp only [bin2num_eq_ok hstack]
    exact ⟨fun ⟨_, h, _⟩ => h, fun h => ⟨_, h, rfl⟩⟩
  · exact ((bin2num_eq_ok hstack).mp hm').2

end

/-- -255, with a zero too many, filled up to four bytes and put back. -/
theorem num2bin_bin2num_255 :
    ((∃ m', execInstruction nullCrypto baseChecker 0 true opNum2Bin []
        { stack := [[4], [0xff, 0, 0x80]] } = .ok () m') ↔
      (0 : ℤ) ≤ 4 ∧ (4 : ℤ) ≤ 520 ∧ (([0xff, 0x80] : Bytes).length : ℤ) ≤ 4) ∧
    ((∃ m', execInstruction nullCrypto baseChecker 0 true opBin2Num []
        { stack := [[0xff, 0, 0x80]] } = .ok () m') ↔ ([0xff, 0x80] : Bytes).length ≤ 4) := by
  have hmin : IsMinimalEncoding [0xff, 0x80] [0xff, 0, 0x80] := isMinimalEncoding_iff.mpr (by decide)
  exact ⟨((num2bin_bin2num nullCrypto baseChecker 0 hmin).1 _ [4] 4 rfl (by decide)).1,
    ((num2bin_bin2num nullCrypto baseChecker 0 hmin).2 _ rfl).1⟩

end Script
