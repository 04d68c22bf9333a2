import Mathlib.Data.Nat.Digits.Defs
import WebTidy.Proofs.CharRef

/-
  References by number.

  The number of a reference is read into a word of 32 bits,
  so reading can overflow.  A number that overflows is no
  code of a character, and one that does not is the exact
  value of its digits, however many of them are zeros.  What
  a reference by number is replaced by can therefore be told
  from the value of its digits alone.

  Key definitions include:
    * `WebTidy.CharRef.valueOf`
    * `WebTidy.CharRef.IsNumeral`
    * `WebTidy.CharRef.Denotes`
    * `WebTidy.CharRef.Replaces`

  Key theorems include:
    * `WebTidy.CharRef.number?_eq_some_iff`
    * `WebTidy.CharRef.denoted?_eq_some_iff`
    * `WebTidy.CharRef.replaces_iff`
    * `WebTidy.CharRef.decode_numeric`
-/

------------------------------------------------------------
-- Numerals
------------------------------------------------------------

namespace WebTidy

namespace CharRef

/- The digits, each at the place of its value. -/
def numerals :
    Text :=
  "0123456789abcdef".toList

/- The value of a digit; other characters have sixteen. -/
def digitValue
    (c : Char) :
    Nat :=
  numerals.idxOf c.toLower

/- The exact value of some digits. -/
def valueOf
    (base : Nat)
    (digits : Text) :
    Nat :=
  Nat.ofDigits base (digits.reverse.map digitValue)

/- A non-empty sequence of digits and its value. -/
structure IsNumeral
    (base : Nat)
    (digits : Text)
    (v : Nat) :
    Prop where
  nonempty : digits ≠ []
  inBase : ∀ c ∈ digits, digitValue c < base
  value : valueOf base digits = v

/- What a payload behind a hash sign stands for. -/
inductive Denotes :
    Text → Nat → Prop
| decimal
    {digits : Text}
    {v : Nat}
    (hDigits : IsNumeral 10 digits v) :
    Denotes digits v
| hexadecimal
    {mark : Char}
    {digits : Text}
    {v : Nat}
    (hMark : mark = 'x' ∨ mark = 'X')
    (hDigits : IsNumeral 16 digits v) :
    Denotes (mark :: digits) v

/- The characters that a reference may not stand for. -/
def Mode.kept :
    Mode → Text
| .text => ['&', '<', '>']
| .attribute => ['&', '<', '>', '"', '\'']

/-
  What a reference by number is replaced by: the character
  with this code, or else the reference itself.
-/
inductive Replaces
    (mode : Mode)
    (payload : Text) :
    Text → Prop
| character
    {c : Char}
    (hCode : Denotes payload c.toNat)
    (hFree : c ∉ mode.kept) :
    Replaces mode payload [c]
| unchanged
    (hNone :
      ∀ c : Char, Denotes payload c.toNat → c ∈ mode.kept) :
    Replaces mode payload ('&' :: '#' :: payload ++ [';'])

end CharRef

end WebTidy

------------------------------------------------------------
-- Digits
------------------------------------------------------------

namespace WebTidy

namespace CharRef

/- No digit lies outside ASCII. -/
theorem digit?_of_le
    (base : Nat)
    {c : Char}
    (hc : 0x80 ≤ c.toNat) :
    digit? base c = none ∧ digitValue c = 16 := by
  have hAbove {d : Char} (hd : d.toNat < 0x80) :
      ¬ c.val ≤ d.val := by
    intro hLe
    exact absurd (Nat.le_trans hc hLe) (Nat.not_le_of_lt hd)
  have hDigit : ¬ c.isDigit = true := by
    rw [Char.isDigit, Bool.and_eq_true, decide_eq_true_eq,
      decide_eq_true_eq]
    exact fun hBounds => hAbove (d := '9') (by decide) hBounds.2
  have hSmall : ¬ c ≤ 'f' := hAbove (by decide)
  have hLarge : ¬ c ≤ 'F' := hAbove (by decide)
  constructor
  · simp [digit?, hDigit, hSmall, hLarge]
  · have hLower : c.toLower = c := by
      apply dif_neg
      exact fun hUpper => hAbove (d := 'Z') (by decide) hUpper.2
    have hNone : c ∉ numerals := by
      intro hMem
      have hAll : numerals.all (·.toNat < 0x80) = true := by
        decide
      have hc := List.all_eq_true.mp hAll c hMem
      exact hAbove (of_decide_eq_true hc) (UInt32.le_refl _)
    rw [digitValue, hLower, List.idxOf_eq_length hNone]
    rfl

/- A digit is read as its place among the digits. -/
theorem digit?_eq
    {base : Nat}
    (hBase : base ≤ 16)
    (c : Char) :
    digit? base c =
      if digitValue c < base then some (digitValue c)
      else none := by
  rcases Nat.lt_or_ge c.toNat 0x80 with hc | hc
  · have hTable :
        ∀ b < 17, ∀ n < 0x80,
          digit? b (Char.ofNat n) =
            if digitValue (Char.ofNat n) < b then
              some (digitValue (Char.ofNat n))
            else none := by
      decide +kernel
    rw [← Char.ofNat_toNat c]
    exact hTable base (by omega) c.toNat hc
  · rcases digit?_of_le base hc with ⟨hNone, hValue⟩
    rw [hNone, hValue, if_neg (by omega)]

/- One more digit, if the number still fits into a word. -/
theorem appendDigit?_eq_some_iff
    {base n v : Nat}
    (hBase : base ≤ 16)
    (c : Char) :
    appendDigit? base n c = some v ↔
      digitValue c < base ∧ base * n < UInt32.size ∧
        digitValue c + base * n = v ∧ v < UInt32.size := by
  rw [appendDigit?, digit?_eq hBase]
  simp only [word?, Option.bind_eq_bind, Option.bind_eq_some_iff,
    Option.ite_none_right_eq_some, Option.some.injEq]
  constructor
  · rintro ⟨value, ⟨hDigit, rfl⟩, product, ⟨hProduct, rfl⟩,
      hSum, hValue⟩
    rw [Nat.add_comm] at hSum hValue
    exact ⟨hDigit, hProduct, hValue, hValue ▸ hSum⟩
  · rintro ⟨hDigit, hProduct, rfl, hSum⟩
    rw [Nat.add_comm] at hSum ⊢
    exact ⟨_, ⟨hDigit, rfl⟩, _, ⟨hProduct, rfl⟩, hSum, rfl⟩

/- The value of some digits and one more. -/
theorem valueOf_concat
    (base : Nat)
    (digits : Text)
    (c : Char) :
    valueOf base (digits ++ [c]) =
      digitValue c + base * valueOf base digits := by
  rw [valueOf, List.reverse_concat, List.map_cons,
    Nat.ofDigits_cons, valueOf]

/-
  Digits read one after the other.  A number only grows, so
  nothing overflows on the way to a number that fits.
-/
theorem foldlM_appendDigit?_eq_some_iff
    {base v : Nat}
    (hBase : base ≤ 16)
    (digits : Text) :
    digits.foldlM (appendDigit? base) 0 = some v ↔
      (∀ c ∈ digits, digitValue c < base) ∧
        valueOf base digits = v ∧ v < UInt32.size := by
  induction digits using List.reverseRecOn generalizing v with
  | nil =>
      have hZero : valueOf base [] = 0 := rfl
      simp only [List.foldlM_nil, Option.pure_def, hZero,
        Option.some.injEq, List.not_mem_nil, false_imp_iff,
        implies_true, true_and]
      constructor
      · rintro rfl
        exact ⟨rfl, by decide⟩
      · exact And.left
  | append_singleton digits c ih =>
      rw [List.foldlM_append, valueOf_concat]
      simp only [List.foldlM_cons, List.foldlM_nil, bind_pure,
        Option.bind_eq_bind, Option.bind_eq_some_iff,
        ih, appendDigit?_eq_some_iff hBase, List.mem_append,
        List.mem_singleton, or_imp, forall_and, forall_eq]
      constructor
      · rintro ⟨_, ⟨hDigits, rfl, _⟩, hDigit, _, hValue, hFits⟩
        exact ⟨⟨hDigits, hDigit⟩, hValue, hFits⟩
      · rintro ⟨⟨hDigits, hDigit⟩, hValue, hFits⟩
        have hProduct :
            base * valueOf base digits < UInt32.size := by
          omega
        have hBefore : valueOf base digits < UInt32.size :=
          Nat.lt_of_le_of_lt
            (Nat.le_mul_of_pos_left _
              (Nat.zero_lt_of_lt hDigit)) hProduct
        exact ⟨_, ⟨hDigits, rfl, hBefore⟩, hDigit, hProduct,
          hValue, hFits⟩

/- A number is read exactly, or it does not fit into a word. -/
theorem number?_eq_some_iff
    {base v : Nat}
    {digits : Text}
    (hBase : base ≤ 16) :
    number? base digits = some v ↔
      IsNumeral base digits v ∧ v < UInt32.size := by
  rw [number?]
  split
  · rename_i hNil
    refine iff_of_false nofun ?_
    exact fun h => h.1.nonempty hNil
  · rename_i hSome
    rw [foldlM_appendDigit?_eq_some_iff hBase]
    constructor
    · rintro ⟨hDigits, hValue, hFits⟩
      exact ⟨⟨hSome, hDigits, hValue⟩, hFits⟩
    · rintro ⟨⟨_, hDigits, hValue⟩, hFits⟩
      exact ⟨hDigits, hValue, hFits⟩

end CharRef

end WebTidy

------------------------------------------------------------
-- Replaced References
------------------------------------------------------------

namespace WebTidy

namespace CharRef

/- A number is the code of at most one character. -/
theorem scalar?_eq_some_iff
    {n : Nat}
    {c : Char} :
    scalar? n = some c ↔ n = c.toNat := by
  rw [scalar?, Option.ite_none_right_eq_some, Option.some.injEq]
  constructor
  · rintro ⟨hValid, rfl⟩
    rw [Char.ofNat, dif_pos hValid]
    rfl
  · rintro rfl
    exact ⟨c.valid, Char.ofNat_toNat c⟩

/- Every code of a character fits into a word. -/
theorem number?_bind_scalar?_eq_some_iff
    {base : Nat}
    {digits : Text}
    {c : Char}
    (hBase : base ≤ 16) :
    (number? base digits).bind scalar? = some c ↔
      IsNumeral base digits c.toNat := by
  simp only [Option.bind_eq_some_iff, scalar?_eq_some_iff,
    exists_eq_right, number?_eq_some_iff hBase]
  exact and_iff_left c.val.toNat_lt

/- A hexadecimal number begins with its mark. -/
theorem denotes_mark_iff
    {mark : Char}
    {digits : Text}
    {v : Nat}
    (hMark : mark = 'x' ∨ mark = 'X') :
    Denotes (mark :: digits) v ↔ IsNumeral 16 digits v := by
  constructor
  · intro h
    cases h with
    | decimal hDigits =>
        have hBound := hDigits.inBase mark (by simp)
        rcases hMark with rfl | rfl
        · exact absurd hBound (by decide)
        · exact absurd hBound (by decide)
    | hexadecimal _ hDigits => exact hDigits
  · exact .hexadecimal hMark

/- The character of a number is the one with that code. -/
theorem denoted?_eq_some_iff
    {payload : Text}
    {c : Char} :
    denoted? ('#' :: payload) = some c ↔
      Denotes payload c.toNat := by
  unfold denoted?
  split
  · rename_i digits hShape
    cases hShape
    rw [denotes_mark_iff (Or.inl rfl),
      number?_bind_scalar?_eq_some_iff (by decide)]
  · rename_i digits hShape
    cases hShape
    rw [denotes_mark_iff (Or.inr rfl),
      number?_bind_scalar?_eq_some_iff (by decide)]
  · rename_i digits hSmall hLarge hShape
    cases hShape
    rw [number?_bind_scalar?_eq_some_iff (by decide)]
    constructor
    · exact .decimal
    · intro h
      cases h with
      | decimal hDigits => exact hDigits
      | hexadecimal hMark hDigits =>
          rcases hMark with rfl | rfl
          · exact (hSmall _ rfl).elim
          · exact (hLarge _ rfl).elim
  · rename_i hNumber
    exact absurd rfl (hNumber payload)

/- The characters that stay encoded, in a list. -/
theorem Mode.keeps_iff
    {mode : Mode}
    {c : Char} :
    mode.keeps c = true ↔ c ∈ mode.kept := by
  cases mode <;> simp [keeps, kept]

/- What a number is replaced by. -/
theorem resolve?_eq_some_iff
    {mode : Mode}
    {payload : Text}
    {c : Char} :
    resolve? mode ('#' :: payload) = some c ↔
      Denotes payload c.toNat ∧ c ∉ mode.kept := by
  rw [resolve?, Option.filter_eq_some_iff, denoted?_eq_some_iff,
    Bool.not_eq_true', ← Bool.not_eq_true, Mode.keeps_iff]

/- A reference on its own. -/
theorem decode_payload
    (mode : Mode)
    {payload : Text}
    (h : IsPayload payload) :
    decode mode ('&' :: payload ++ [';']) =
      match resolve? mode payload with
      | some d => [d]
      | none => '&' :: payload ++ [';'] := by
  have hRead : payload? (payload ++ [';']) = some payload :=
    payload?_eq_some_iff.mpr ⟨h, [], rfl⟩
  have hPlain : '&' ∉ payload ++ [';'] := by
    intro hMem
    rcases List.mem_append.mp hMem with hMem | hMem
    · rcases h.of_mem hMem with hChar | hChar
      · exact absurd hChar (by decide)
      · exact absurd hChar (by decide)
    · exact absurd (List.mem_singleton.mp hMem) (by decide)
  rw [List.cons_append, decode, if_pos rfl, hRead]
  simp only
  cases resolve? mode payload with
  | none => simp only [decode_of_not_mem mode hPlain]
  | some d =>
      have hRest :
          (payload ++ [';']).drop (payload.length + 1) = [] :=
        List.drop_eq_nil_of_le (by simp)
      simp only [hRest, decode]

/- A reference by number is replaced as its value says. -/
theorem replaces_iff
    {mode : Mode}
    {payload t : Text}
    (hSome : payload ≠ [])
    (hChars : payload.all isPayloadChar = true) :
    Replaces mode payload t ↔
      t = decode mode ('&' :: '#' :: payload ++ [';']) := by
  have hPayload : IsPayload ('#' :: payload) :=
    ⟨payload, hSome, hChars, Or.inr rfl⟩
  have hDecode := decode_payload mode hPayload
  cases hDenoted : resolve? mode ('#' :: payload) with
  | none =>
      have hNone (c : Char) (hCode : Denotes payload c.toNat) :
          c ∈ mode.kept := by
        by_contra hFree
        rw [resolve?_eq_some_iff.mpr ⟨hCode, hFree⟩] at hDenoted
        cases hDenoted
      rw [hDenoted] at hDecode
      rw [hDecode]
      constructor
      · intro h
        cases h with
        | character hCode hFree =>
            exact absurd (hNone _ hCode) hFree
        | unchanged _ => rfl
      · rintro rfl
        exact .unchanged hNone
  | some d =>
      rw [hDenoted] at hDecode
      rw [hDecode]
      have hValue := resolve?_eq_some_iff.mp hDenoted
      constructor
      · intro h
        cases h with
        | @character c hCode hFree =>
            rw [resolve?_eq_some_iff.mpr ⟨hCode, hFree⟩]
              at hDenoted
            rw [Option.some.inj hDenoted]
        | unchanged hNone =>
            exact absurd (hNone d hValue.1) hValue.2
      · rintro rfl
        exact .character hValue.1 hValue.2

/-
  A reference by number stands apart from any text around
  it.  It is replaced by the character whose code is the
  exact value of its digits, and left as it is if there is
  no such character or the character stays encoded.
-/
theorem decode_numeric
    (mode : Mode)
    (a b : Text)
    {payload : Text}
    (hSome : payload ≠ [])
    (hChars : payload.all isPayloadChar = true) :
    ∃ r,
      (∀ t, Replaces mode payload t ↔ t = r) ∧
      decode mode
          (a ++ "&#".toList ++ payload ++ ";".toList ++ b) =
        decode mode a ++ r ++ decode mode b := by
  refine ⟨_, fun t => replaces_iff hSome hChars, ?_⟩
  have hText :
      a ++ "&#".toList ++ payload ++ ";".toList ++ b =
        a ++ ('&' :: '#' :: payload ++ [';']) ++ b := by
    simp
  have hFront : Apart a ('&' :: '#' :: payload ++ [';']) :=
    Or.inr rfl
  have hBack :
      Apart (a ++ ('&' :: '#' :: payload ++ [';'])) b := by
    refine Or.inl ?_
    rw [← List.append_assoc, List.getLast?_concat]
    rfl
  rw [hText, decode_append mode hBack, decode_append mode hFront]

/-
  A letter by its code, with many zeros, among references
  that are not finished.
-/
theorem decode_zeroPadded :
    "x00000000000000000000041".toList ≠ [] ∧
      "x00000000000000000000041".toList.all isPayloadChar =
        true ∧
      decode .attribute
          ("&co&#".toList ++ "&#".toList ++
            "x00000000000000000000041".toList ++ ";".toList ++
            ";&#34;&lt".toList) =
        "&co&#A;&#34;&lt".toList := by
  have hSome : "x00000000000000000000041".toList ≠ [] := by
    decide
  have hChars :
      "x00000000000000000000041".toList.all isPayloadChar =
        true := by
    decide
  have hLetter :
      Replaces .attribute
        "x00000000000000000000041".toList ['A'] := by
    have hInBase :
        "00000000000000000000041".toList.all
          (digitValue · < 16) = true := by
      decide
    refine .character (.hexadecimal (Or.inl rfl) ?_) ?_
    · refine ⟨by decide, ?_, by decide⟩
      intro c hc
      exact of_decide_eq_true (List.all_eq_true.mp hInBase c hc)
    · decide
  rcases decode_numeric .attribute "&co&#".toList
      ";&#34;&lt".toList hSome hChars with
    ⟨r, hReplaces, hDecode⟩
  rw [← (hReplaces _).mp hLetter] at hDecode
  refine ⟨hSome, hChars, hDecode.trans ?_⟩
  decide +kernel

end CharRef

end WebTidy
