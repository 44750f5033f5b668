/-
# The tokenizer and the bounds of its buffer

`TxTokenizer::next` compares the end of each field with the end of the buffer and with nothing
else.  Fields of a fixed size and counts only ever move forwards; the length of a script is
turned into an `int`, and a negative one moves the tokenizer backwards.

* `next_safe_iff` : one call stays inside exactly when the length of the script that it reads,
  if it reads one, is not negative;
* `staysInside_iff` : the same for all calls on a buffer.
-/
import Hub.TxIterator

open ByteCodec Streaming

namespace TxTokenizer

/-! ## Tokens in a buffer -/

/-- What `next` may do from `t`: a token behind the previous one and inside the buffer, or the
end, without a move. -/
def Follows (t u : TxTokenizer) : Prop :=
  u.data = t.data ∧
    if u.tag = some .finish then u.currentTokenEnd = t.currentTokenEnd
    else t.currentTokenEnd ≤ u.currentTokenStart ∧ u.currentTokenStart ≤ u.currentTokenEnd ∧
      u.currentTokenEnd ≤ u.data.bytes.length

/-- A call ends with `std::runtime_error`, or with a token in its place. -/
def Safe (t : TxTokenizer) : Except Fault TxTokenizer → Prop
  | .error fault => ∃ what, fault = .runtimeError what
  | .ok u => t.Follows u

/-- `n` calls of `next`, or those up to the first exception, are all safe. -/
def StaysInside : ℕ → TxTokenizer → Prop
  | 0, _ => True
  | n + 1, t => t.Safe t.next ∧ ∀ u, t.next = .ok u → StaysInside n u

/-- The script that `next` goes to, if it goes to one, has a length whose low 32 bits are a
positive `int`. -/
def ScriptFits (t : TxTokenizer) : Prop :=
  t.currentTokenEnd + 1 < t.data.bytes.length →
    t.tag = some .prevTxIndex ∨ t.tag = some .outputValue →
      ∀ scriptLength pos, readCompactSize t.data.bytes t.currentTokenEnd = .ok (scriptLength, pos) →
        scriptLength % 2 ^ 32 < 2 ^ 31

/-- The same for all scripts that `n` calls go to. -/
def ScriptsFit : ℕ → TxTokenizer → Prop
  | 0, _ => True
  | n + 1, t => t.ScriptFits ∧ ∀ u, t.next = .ok u → ScriptsFit n u

/-! Both sides can be evaluated. -/

instance decidableSafe (t : TxTokenizer) : ∀ r, Decidable (t.Safe r)
  | .ok u => inferInstanceAs (Decidable (u.data = t.data ∧ if u.tag = some .finish then _ else _))
  | .error (.runtimeError what) => .isTrue ⟨what, rfl⟩
  | .error .lengthError => .isFalse fun ⟨_, h⟩ => (by cases h)
  | .error .assertion => .isFalse fun ⟨_, h⟩ => (by cases h)
  | .error .outOfBounds => .isFalse fun ⟨_, h⟩ => (by cases h)

instance decidableScriptFits (t : TxTokenizer) : Decidable t.ScriptFits :=
  match h : readCompactSize t.data.bytes t.currentTokenEnd with
  | .error _ => .isTrue fun _ _ _ _ hok => (by rw [h] at hok; cases hok)
  | .ok (scriptLength, _) =>
      decidable_of_iff (t.currentTokenEnd + 1 < t.data.bytes.length →
        t.tag = some .prevTxIndex ∨ t.tag = some .outputValue → scriptLength % 2 ^ 32 < 2 ^ 31)
        (by simp [ScriptFits, h])

instance decidableStaysInside : ∀ (n : ℕ) (t : TxTokenizer), Decidable (t.StaysInside n)
  | 0, _ => .isTrue trivial
  | n + 1, t =>
      match h : t.next with
      | .error fault => decidable_of_iff (t.Safe (.error fault)) (by simp [StaysInside, h])
      | .ok u =>
          haveI := decidableStaysInside n u
          decidable_of_iff (t.Safe (.ok u) ∧ u.StaysInside n) (by simp [StaysInside, h])

instance decidableScriptsFit : ∀ (n : ℕ) (t : TxTokenizer), Decidable (t.ScriptsFit n)
  | 0, _ => .isTrue trivial
  | n + 1, t =>
      match h : t.next with
      | .error _ => decidable_of_iff t.ScriptFits (by simp [ScriptsFit, h])
      | .ok u =>
          haveI := decidableScriptsFit n u
          decidable_of_iff (t.ScriptFits ∧ u.ScriptsFit n) (by simp [ScriptsFit, h])

/-- Between two calls: where the transaction starts that the last token belongs to. -/
def Inv (t : TxTokenizer) : Prop :=
  0 ≤ t.currentTokenEnd ∧
    match t.tag with
    | none => t.txStart = some t.currentTokenEnd
    | some .finish => True
    | some .txVersion => t.txStart = some (t.currentTokenEnd - 4)
    | some _ => ∃ start, t.txStart = some start ∧ start + 4 < t.currentTokenEnd

/-- A safe call that keeps the invariant. -/
def Good (t : TxTokenizer) (r : Except Fault TxTokenizer) : Prop :=
  t.Safe r ∧ ∀ u, r = .ok u → u.Inv

theorem good_error (t : TxTokenizer) (what : String) : t.Good (.error (.runtimeError what)) :=
  ⟨⟨what, rfl⟩, fun _ h => (by cases h)⟩

theorem good_finish {t u : TxTokenizer} (hdata : u.data = t.data) (htag : u.tag = some .finish)
    (hend : u.currentTokenEnd = t.currentTokenEnd) (h : 0 ≤ t.currentTokenEnd) :
    t.Good (.ok u) := by
  refine ⟨⟨hdata, by rwa [if_pos htag]⟩, ?_⟩
  intro v hv
  obtain rfl := Except.ok.inj hv
  refine ⟨by rwa [hend], ?_⟩
  rw [htag]
  trivial

/-! ## One call -/

theorem toInt32_nonneg_iff (n : ℕ) : 0 ≤ toInt32 n ↔ n % 2 ^ 32 < 2 ^ 31 := by
  rw [toInt32, Int.bmod_def]
  omega

theorem readLong_forward (buf : List UInt8) (pos : ℤ) (k : ℕ) :
    (∃ what, readLong buf pos k = .error (.runtimeError what)) ∨
      ∃ n p, readLong buf pos k = .ok (n, p) ∧ pos < p ∧ p ≤ buf.length := by
  rw [readLong]
  split
  next => exact .inl ⟨_, rfl⟩
  next h => exact .inr ⟨_, _, rfl, by omega, by omega⟩

/-- The reader stays inside if the first byte is. -/
theorem readCompactSize_forward {buf : List UInt8} {pos : ℤ} (h : 0 ≤ pos)
    (hlt : pos < buf.length) :
    (∃ what, readCompactSize buf pos = .error (.runtimeError what)) ∨
      ∃ n p, readCompactSize buf pos = .ok (n, p) ∧ pos < p ∧ p ≤ buf.length := by
  rw [readCompactSize, if_neg (by omega), List.getElem?_eq_getElem (by omega)]
  dsimp only
  split_ifs
  · exact .inr ⟨_, _, rfl, by omega, by omega⟩
  · exact readLong_forward buf pos 2
  · exact readLong_forward buf pos 4
  · exact readLong_forward buf pos 8

theorem advance_eq (t : TxTokenizer) (size : ℤ) {tag : Tx.Component} (htag : tag ≠ .finish) :
    t.advance size tag = if t.currentTokenEnd + size > t.data.bytes.length then
        .error (.runtimeError "Tx data missing")
      else .ok { t with currentTokenEnd := t.currentTokenEnd + size, tag := some tag } := by
  rw [advance, checkSpaceForTag]
  simp [htag]

/-- A field that does not go backwards. -/
theorem good_advance {t t' : TxTokenizer} {size : ℤ} {tag : Tx.Component}
    (hdata : t'.data = t.data) (hstart : t.currentTokenEnd ≤ t'.currentTokenStart)
    (hend : t'.currentTokenStart ≤ t'.currentTokenEnd) (hsize : 0 ≤ size) (htag : tag ≠ .finish)
    (hinv : Inv { t' with currentTokenEnd := t'.currentTokenEnd + size, tag := some tag }) :
    t.Good (t'.advance size tag) := by
  rw [advance_eq t' size htag]
  split
  next => exact good_error t _
  next h =>
    refine ⟨⟨hdata, ?_⟩, ?_⟩
    · rw [if_neg (by simpa using htag)]
      exact ⟨hstart, by dsimp only; omega, by dsimp only; omega⟩
    · intro u hu
      obtain rfl := Except.ok.inj hu
      exact hinv

/-- A script.  Its length decides. -/
theorem advanceScript_safe {t : TxTokenizer} (h : 0 ≤ t.currentTokenEnd)
    (hlt : t.currentTokenEnd + 1 < t.data.bytes.length) {start : ℤ}
    (hstart : t.txStart = some start) (hbehind : start + 4 < t.currentTokenEnd)
    {tag : Tx.Component} (htag : tag = .txInScript ∨ tag = .outputScript) :
    (∃ what, readCompactSize t.data.bytes t.currentTokenEnd = .error (.runtimeError what) ∧
      t.Good (t.advanceScript tag)) ∨
    ∃ scriptLength pos,
      readCompactSize t.data.bytes t.currentTokenEnd = .ok (scriptLength, pos) ∧
      (scriptLength % 2 ^ 32 < 2 ^ 31 → t.Good (t.advanceScript tag)) ∧
      (t.Safe (t.advanceScript tag) → scriptLength % 2 ^ 32 < 2 ^ 31) := by
  have hfinish : tag ≠ .finish := by rcases htag with rfl | rfl <;> decide
  have hinside : t.currentTokenEnd < t.data.bytes.length := by omega
  rcases readCompactSize_forward h hinside with ⟨what, herr⟩ | ⟨n, p, hok, hp, hp'⟩
  · refine .inl ⟨what, herr, ?_⟩
    rw [advanceScript, herr]
    exact good_error t what
  · refine .inr ⟨n, p, hok, ?_, ?_⟩
    · intro hfits
      have hpos := (toInt32_nonneg_iff n).mpr hfits
      rw [advanceScript, hok]
      refine good_advance rfl (le_of_lt hp) (le_refl _) hpos hfinish ⟨by dsimp only; omega, ?_⟩
      rcases htag with rfl | rfl <;> exact ⟨start, hstart, by dsimp only; omega⟩
    · intro hsafe
      rw [← toInt32_nonneg_iff]
      by_contra hneg
      -- with a negative length the token ends in front of its start
      rw [advanceScript, hok] at hsafe
      simp only [bind, Except.bind] at hsafe
      rw [advance_eq _ _ hfinish, if_neg (by dsimp only; omega)] at hsafe
      obtain ⟨-, hfollows⟩ := hsafe
      rw [if_neg (by simpa using hfinish)] at hfollows
      have hback : p ≤ p + toInt32 n := hfollows.2.1
      omega

/-- The first field of a transaction. -/
theorem good_version {t : TxTokenizer} (h : 0 ≤ t.currentTokenEnd) :
    t.Good (advance { t with
      currentTokenStart := t.currentTokenEnd, txStart := some t.currentTokenEnd } 4
      .txVersion) := by
  refine good_advance rfl (le_refl _) (le_refl _) (by decide) (by decide) ⟨by dsimp only; omega, ?_⟩
  dsimp only
  rw [Int.add_sub_cancel]

/-- The number of inputs and the first input. -/
theorem good_firstInput {t : TxTokenizer} (h : 0 ≤ t.currentTokenEnd)
    (hlt : t.currentTokenEnd + 1 < t.data.bytes.length)
    (hstart : t.txStart = some (t.currentTokenEnd - 4)) (htag : t.tag = some .txVersion) :
    t.Good (nextInside { t with currentTokenStart := t.currentTokenEnd }) := by
  have hinside : t.currentTokenEnd < t.data.bytes.length := by omega
  rw [nextInside, startInputs, if_pos hstart]
  dsimp only
  rcases readCompactSize_forward h hinside with ⟨what, herr⟩ | ⟨n, p, hok, hp, hp'⟩
  · rw [herr]
    exact good_error t what
  · rw [hok]
    simp only [bind, Except.bind, afterSequence, htag, nextField]
    rw [if_neg (by decide)]
    dsimp only
    refine good_advance rfl (le_of_lt hp) (le_refl _) (by decide) (by decide) ⟨by dsimp only; omega, ?_⟩
    exact ⟨t.currentTokenEnd - 4, hstart, by dsimp only; omega⟩

section Inside

variable {t : TxTokenizer} (h : 0 ≤ t.currentTokenEnd)
  (hlt : t.currentTokenEnd + 1 < t.data.bytes.length) {start : ℤ}
  (hstart : t.txStart = some start) (hbehind : start + 4 < t.currentTokenEnd)

include h hstart hbehind

omit h in
/-- Behind the first input the count of inputs is not read again. -/
theorem startInputs_of_behind :
    startInputs { t with currentTokenStart := t.currentTokenEnd }
      = .ok ({ t with currentTokenStart := t.currentTokenEnd }, false) := by
  rw [startInputs, if_neg]
  simp only [hstart, Option.some.injEq]
  omega

/-- A field of a fixed size, behind the first input. -/
theorem good_field {t' : TxTokenizer} {size : ℤ} {tag : Tx.Component} (hdata : t'.data = t.data)
    (htx : t'.txStart = t.txStart) (hs : t.currentTokenEnd ≤ t'.currentTokenStart)
    (he : t'.currentTokenStart ≤ t'.currentTokenEnd) (hsize : 0 ≤ size)
    (htag : tag ≠ .finish ∧ tag ≠ .txVersion) : t.Good (t'.advance size tag) := by
  refine good_advance hdata hs he hsize htag.1 ⟨by dsimp only; omega, ?_⟩
  dsimp only
  split
  next hc => cases hc
  next hc => exact absurd (Option.some.inj hc) htag.1
  next hc => exact absurd (Option.some.inj hc) htag.2
  next => exact ⟨start, htx.trans hstart, show start + 4 < t'.currentTokenEnd + size by omega⟩

include hlt

/-- Behind a sequence comes an input, or the number of outputs and an output. -/
theorem good_afterSequence (htag : t.tag = some .sequence) :
    t.Good (nextInside { t with currentTokenStart := t.currentTokenEnd }) := by
  have hinside : t.currentTokenEnd < t.data.bytes.length := by omega
  rw [nextInside, startInputs_of_behind hstart hbehind]
  simp only [bind, Except.bind, afterSequence, htag, if_true]
  by_cases hleft : t.numInputsLeft - 1 > 0
  · rw [if_pos hleft]
    exact good_field h hstart hbehind rfl rfl (le_refl _) (le_refl _) (by decide) (by decide)
  · rw [if_neg hleft]
    rcases readCompactSize_forward h hinside with ⟨what, herr⟩ | ⟨n, p, hok, hp, hp'⟩
    · rw [herr]
      exact good_error t what
    · rw [hok]
      simp only [nextField]
      exact good_field h hstart hbehind rfl rfl (le_of_lt hp) (le_refl _) (by decide) (by decide)

omit h hlt in
/-- Behind every other field the tag decides. -/
theorem nextInside_of_behind {tag : Tx.Component} (htag : t.tag = some tag)
    (hne : tag ≠ .sequence) :
    nextInside { t with currentTokenStart := t.currentTokenEnd }
      = nextField { t with currentTokenStart := t.currentTokenEnd } false false := by
  rw [nextInside, startInputs_of_behind hstart hbehind]
  simp [bind, Except.bind, afterSequence, htag, hne]

/-- Fields that are not a script. -/
theorem good_nextInside {tag : Tx.Component} (htag : t.tag = some tag)
    (hscript : tag ≠ .prevTxIndex ∧ tag ≠ .outputValue)
    (hfirst : tag ≠ .txVersion ∧ tag ≠ .finish) :
    t.Good (nextInside { t with currentTokenStart := t.currentTokenEnd }) := by
  by_cases hseq : tag = .sequence
  · exact good_afterSequence h hlt hstart hbehind (by rw [htag, hseq])
  rw [nextInside_of_behind hstart hbehind htag hseq, nextField]
  simp only [htag, Bool.false_eq_true, if_false]
  cases tag with
  | txVersion => exact absurd rfl hfirst.1
  | finish => exact absurd rfl hfirst.2
  | prevTxIndex => exact absurd rfl hscript.1
  | outputValue => exact absurd rfl hscript.2
  | sequence => exact absurd rfl hseq
  | prevTxHash =>
    exact good_field h hstart hbehind rfl rfl (le_refl _) (le_refl _) (by decide) (by decide)
  | txInScript =>
    exact good_field h hstart hbehind rfl rfl (le_refl _) (le_refl _) (by decide) (by decide)
  | outputScript =>
    dsimp only
    split
    · exact good_field h hstart hbehind rfl rfl (le_refl _) (le_refl _) (by decide) (by decide)
    · exact good_field h hstart hbehind rfl rfl (le_refl _) (le_refl _) (by decide) (by decide)
  | lockTime => exact good_finish rfl rfl rfl h

end Inside

/-- `next` in the middle of a transaction. -/
theorem next_of_behind {t : TxTokenizer} {start : ℤ}
    (hlt : t.currentTokenEnd + 1 < t.data.bytes.length) (hstart : t.txStart = some start)
    (hbehind : start < t.currentTokenEnd) (htag : t.tag ≠ some .finish) :
    t.next = nextInside { t with currentTokenStart := t.currentTokenEnd } := by
  rw [next, if_neg (by omega), if_neg]
  rintro (hc | hc)
  · rw [hstart, Option.some.injEq] at hc
    omega
  · exact htag hc

/-- A call that goes to a script. -/
theorem next_script_safe_iff {t : TxTokenizer} (h : 0 ≤ t.currentTokenEnd)
    (hlt : t.currentTokenEnd + 1 < t.data.bytes.length) {start : ℤ}
    (hstart : t.txStart = some start) (hbehind : start + 4 < t.currentTokenEnd)
    (htag : t.tag = some .prevTxIndex ∨ t.tag = some .outputValue) :
    (t.Safe t.next ↔ t.ScriptFits) ∧ (t.ScriptFits → ∀ u, t.next = .ok u → u.Inv) := by
  obtain ⟨tag, htag', hnext⟩ : ∃ tag, (tag = .txInScript ∨ tag = .outputScript) ∧
      t.next = advanceScript { t with currentTokenStart := t.currentTokenEnd } tag := by
    rcases htag with htag | htag
    · refine ⟨.txInScript, .inl rfl, ?_⟩
      rw [next_of_behind hlt hstart (by omega) (by simp [htag]),
        nextInside_of_behind hstart hbehind htag (by decide), nextField]
      simp only [htag, Bool.false_eq_true, if_false]
    · refine ⟨.outputScript, .inr rfl, ?_⟩
      rw [next_of_behind hlt hstart (by omega) (by simp [htag]),
        nextInside_of_behind hstart hbehind htag (by decide), nextField]
      simp [htag]
  -- the start of the token before plays no part
  have hscript : advanceScript { t with currentTokenStart := t.currentTokenEnd } tag
      = t.advanceScript tag := rfl
  rw [hnext, hscript]
  rcases advanceScript_safe h hlt hstart hbehind htag' with ⟨what, herr, hgood⟩ |
    ⟨scriptLength, pos, hok, hfits, hsafe⟩
  · refine ⟨iff_of_true hgood.1 ?_, fun _ => hgood.2⟩
    intro _ _ scriptLength pos hok
    rw [herr] at hok
    cases hok
  · refine ⟨⟨?_, fun hc => (hfits (hc hlt htag _ _ hok)).1⟩, fun hc => (hfits (hc hlt htag _ _ hok)).2⟩
    intro hs _ _ scriptLength' pos' hok'
    rw [hok, Except.ok.injEq, Prod.mk.injEq] at hok'
    obtain ⟨rfl, -⟩ := hok'
    exact hsafe hs

/-- **One call.**  It is safe exactly when the script that it goes to fits. -/
theorem next_safe_iff {t : TxTokenizer} (ht : t.Inv) :
    (t.Safe t.next ↔ t.ScriptFits) ∧ (t.ScriptFits → ∀ u, t.next = .ok u → u.Inv) := by
  obtain ⟨h, hplace⟩ := ht
  -- a call that is good whatever the buffer has
  have hgood : (t.currentTokenEnd + 1 < t.data.bytes.length →
      ¬ (t.tag = some .prevTxIndex ∨ t.tag = some .outputValue)) → t.Good t.next →
      (t.Safe t.next ↔ t.ScriptFits) ∧ (t.ScriptFits → ∀ u, t.next = .ok u → u.Inv) := by
    intro hno hg
    exact ⟨iff_of_true hg.1 fun hlt hscript => absurd hscript (hno hlt), fun _ => hg.2⟩
  by_cases hlt : t.currentTokenEnd + 1 < t.data.bytes.length
  · cases htag : t.tag with
    | none =>
      rw [htag] at hplace
      apply hgood
      · simp [htag]
      · rw [next, if_neg (by omega), if_pos (.inl hplace)]
        exact good_version h
    | some tag =>
      rw [htag] at hplace
      by_cases hversion : tag = .txVersion
      · subst hversion
        apply hgood
        · simp [htag]
        · rw [next_of_behind hlt hplace (by omega) (by simp [htag])]
          exact good_firstInput h hlt hplace htag
      by_cases hfinish : tag = .finish
      · subst hfinish
        apply hgood
        · simp [htag]
        · rw [next, if_neg (by omega), if_pos (.inr htag)]
          exact good_version h
      -- what is left is inside a transaction
      obtain ⟨start, hstart, hbehind⟩ : ∃ start, t.txStart = some start ∧
          start + 4 < t.currentTokenEnd := by
        cases tag with
        | txVersion => exact absurd rfl hversion
        | finish => exact absurd rfl hfinish
        | prevTxHash | prevTxIndex | txInScript | sequence | outputValue | outputScript
          | lockTime => exact hplace
      by_cases hscript : t.tag = some .prevTxIndex ∨ t.tag = some .outputValue
      · rw [← htag] at *
        exact next_script_safe_iff h hlt hstart hbehind hscript
      · apply hgood (fun _ => hscript)
        rw [next_of_behind hlt hstart (by omega) (by simpa [htag] using hfinish)]
        refine good_nextInside h hlt hstart hbehind htag ?_ ⟨hversion, hfinish⟩
        rw [htag] at hscript
        simpa using hscript
  · apply hgood (fun hc => absurd hc hlt)
    rw [next, if_pos (by omega)]
    exact good_finish rfl rfl rfl h

/-! ## All calls -/

/-- **All calls** from a state between two tokens. -/
theorem staysInside_iff_of_inv : ∀ (n : ℕ) {t : TxTokenizer}, t.Inv →
    (t.StaysInside n ↔ t.ScriptsFit n) := by
  intro n
  induction n with
  | zero => exact fun _ => Iff.rfl
  | succ n ih =>
    intro t ht
    obtain ⟨hiff, hinv⟩ := next_safe_iff ht
    rw [StaysInside, ScriptsFit, hiff]
    constructor
    · rintro ⟨hfits, hrest⟩
      exact ⟨hfits, fun u hu => (ih (hinv hfits u hu)).mp (hrest u hu)⟩
    · rintro ⟨hfits, hrest⟩
      exact ⟨hfits, fun u hu => (ih (hinv hfits u hu)).mpr (hrest u hu)⟩

/-- A tokenizer that was just made, for a transaction or for a block. -/
def Fresh (t : TxTokenizer) : Prop :=
  (∃ data, t = ofTx data) ∨ ∃ block, ofBlock block = .ok t

theorem Fresh.inv {t : TxTokenizer} (h : t.Fresh) : t.Inv := by
  rcases h with ⟨data, rfl⟩ | ⟨block, hblock⟩
  · exact ⟨le_refl _, rfl⟩
  · rw [ofBlock] at hblock
    split at hblock
    next => cases hblock
    next b _ =>
      obtain rfl := Except.ok.inj hblock
      exact ⟨by dsimp only; omega, trivial⟩

/-- **The tokenizer stays in its buffer**, whatever the bytes are and however often it is
called, exactly when no script that it goes to has a negative length. -/
theorem staysInside_iff {t : TxTokenizer} (h : t.Fresh) (n : ℕ) :
    t.StaysInside n ↔ t.ScriptsFit n :=
  staysInside_iff_of_inv n h.inv

/-- The bytes of a transaction with one input, whose script has the length field
`lengthField`, and one output. -/
def oneInput (lengthField : List UInt8) (h : lengthField.length ≤ 9) : ConstBuffer :=
  ⟨[1, 0, 0, 0, 1] ++ List.replicate 32 7 ++ [0, 0, 0, 0] ++ lengthField ++
    [0x51, 0xff, 0xff, 0xff, 0xff, 1] ++ List.replicate 8 0 ++ [1, 0x51, 0, 0, 0, 0], by
      simp
      omega⟩

/-- With a length of one the tokenizer goes through eight fields to the end. -/
theorem staysInside_iff_oneInput : (ofTx (oneInput [1] (by decide))).StaysInside 10 :=
  (staysInside_iff (.inl ⟨_, rfl⟩) 10).mpr (by decide +kernel)

/-- The length `0xFFFFFFFF` is taken for -1. -/
theorem not_staysInside_negativeLength :
    (ofTx (oneInput [0xfe, 0xff, 0xff, 0xff, 0xff] (by decide))).Fresh ∧
      ¬ (ofTx (oneInput [0xfe, 0xff, 0xff, 0xff, 0xff] (by decide))).StaysInside 4 :=
  ⟨.inl ⟨_, rfl⟩, by decide +kernel⟩

end TxTokenizer
