import WebTidy.Proofs.Text
import WebTidy.Text.Octet

/-
  Texts and their octets.

  An ASCII character is its own octet, and every other
  character becomes several octets beyond ASCII.  A class
  that treats all characters beyond ASCII alike therefore
  finds the same things in a text and in its octets, and so
  does a comparison with an ASCII mark.

  Key definitions include:
    * `WebTidy.Octet.isWide`
    * `WebTidy.Octet.encode`
    * `WebTidy.Octet.TreatsWide`
    * `WebTidy.Octet.Keeps`

  Key theorems include:
    * `WebTidy.Octet.encode_cases`
    * `WebTidy.Octet.ofUtf8?_toUtf8`
    * `WebTidy.Octet.dropWhile_toUtf8`
    * `WebTidy.Octet.trim_toUtf8`
    * `WebTidy.Octet.prefix_toUtf8_iff`
    * `WebTidy.Octet.sameLetters_toUtf8`
-/

------------------------------------------------------------
-- Characters
------------------------------------------------------------

namespace WebTidy

namespace Octet

/- Characters beyond ASCII. -/
def isWide
    (c : Char) :
    Bool :=
  0x80 ≤ c.toNat

/- The octets of a character. -/
def encode
    (c : Char) :
    Text :=
  (String.utf8EncodeChar c).map fun b =>
    Char.ofNat b.toNat

/- The code point of an octet is the octet. -/
theorem toNat_ofNat
    {n : Nat}
    (h : n < 256) :
    (Char.ofNat n).toNat = n := by
  have hValid : n.isValidChar := Or.inl (by omega)
  rw [Char.ofNat, dif_pos hValid]
  rfl

/- An ASCII character is its own octet. -/
theorem encode_of_ascii
    {c : Char}
    (h : isWide c = false) :
    encode c = [c] := by
  have hSmall : c.val.toNat ≤ 0x7f := by
    have hNot : ¬ 0x80 ≤ c.toNat := by simpa [isWide] using h
    change c.toNat ≤ 0x7f
    omega
  rw [encode, String.utf8EncodeChar]
  simp only [if_pos hSmall, List.map_cons, List.map_nil,
    UInt8.toNat_ofNat']
  rw [Nat.mod_eq_of_lt (by omega)]
  simp [Char.ofNat_toNat]

/-
  Any other character has a first octet, and one or more
  that continue it.
-/
theorem exists_encode
    {c : Char}
    (h : isWide c = true) :
    ∃ d more,
      encode c = d :: more ∧
      isWide d = true ∧
      isContinuation d = false ∧
      more ≠ [] ∧
      more.all isContinuation = true := by
  have hLarge : ¬ c.val.toNat ≤ 0x7f := by
    have hWide : 0x80 ≤ c.toNat := by simpa [isWide] using h
    change ¬ c.toNat ≤ 0x7f
    omega
  have hFirst (n : Nat) (hLow : 0xC0 ≤ n) (hHigh : n < 256) :
      isWide (Char.ofNat (UInt8.ofNat n).toNat) = true ∧
        isContinuation (Char.ofNat (UInt8.ofNat n).toNat) =
          false := by
    rw [UInt8.toNat_ofNat', Nat.mod_eq_of_lt hHigh]
    simp only [isWide, isContinuation, toNat_ofNat hHigh,
      decide_eq_true_eq, decide_eq_false_iff_not]
    omega
  have hNext (n : Nat) :
      isContinuation
          (Char.ofNat
            (UInt8.ofNat (n % 0x40 + 0x80)).toNat) =
        true := by
    have hOctet : n % 0x40 + 0x80 < 256 := by omega
    rw [UInt8.toNat_ofNat', Nat.mod_eq_of_lt hOctet]
    simp only [isContinuation, toNat_ofNat hOctet,
      decide_eq_true_eq]
    omega
  rw [encode, String.utf8EncodeChar]
  simp only [if_neg hLarge]
  -- There are two, three or four octets.
  split
  · rcases hFirst (c.val.toNat / 64 % 0x20 + 0xc0)
        (by omega) (by omega) with ⟨hWide, hStart⟩
    refine ⟨_, _, rfl, hWide, hStart, by simp, ?_⟩
    simp only [List.map_cons, List.map_nil, List.all_cons,
      List.all_nil, hNext, Bool.and_self]
  · split
    · rcases hFirst (c.val.toNat / 4096 % 0x10 + 0xe0)
          (by omega) (by omega) with ⟨hWide, hStart⟩
      refine ⟨_, _, rfl, hWide, hStart, by simp, ?_⟩
      simp only [List.map_cons, List.map_nil, List.all_cons,
        List.all_nil, hNext, Bool.and_self]
    · rcases hFirst (c.val.toNat / 262144 % 0x08 + 0xf0)
          (by omega) (by omega) with ⟨hWide, hStart⟩
      refine ⟨_, _, rfl, hWide, hStart, by simp, ?_⟩
      simp only [List.map_cons, List.map_nil, List.all_cons,
        List.all_nil, hNext, Bool.and_self]

/- Octets that continue a character are beyond ASCII. -/
theorem isWide_of_isContinuation
    {c : Char}
    (h : isContinuation c = true) :
    isWide c = true := by
  simp only [isContinuation, decide_eq_true_eq] at h
  simpa [isWide] using h.1

/-
  The octets of a character: itself, or one and more octets
  beyond ASCII.
-/
theorem encode_cases
    (c : Char) :
    (isWide c = false ∧ encode c = [c]) ∨
    (isWide c = true ∧
      ∃ d more,
        encode c = d :: more ∧
        ∀ e ∈ d :: more, isWide e = true) := by
  cases hc : isWide c with
  | false => exact Or.inl ⟨rfl, encode_of_ascii hc⟩
  | true =>
      rcases exists_encode hc with
        ⟨d, more, hEncode, hWide, _, _, hMore⟩
      refine Or.inr ⟨rfl, d, more, hEncode, ?_⟩
      intro e he
      rcases List.mem_cons.mp he with rfl | he
      · exact hWide
      · exact isWide_of_isContinuation
          (List.all_eq_true.mp hMore e he)

/- Every character has an octet. -/
theorem encode_ne_nil
    (c : Char) :
    encode c ≠ [] := by
  rcases encode_cases c with
    ⟨_, hEncode⟩ | ⟨_, d, more, hEncode, _⟩
  · simp [hEncode]
  · simp [hEncode]

/- An octet is beyond ASCII if its character is. -/
theorem isWide_of_mem_encode
    {c d : Char}
    (h : d ∈ encode c) :
    isWide d = isWide c := by
  rcases encode_cases c with
    ⟨_, hEncode⟩ | ⟨hc, e, more, hEncode, hOctets⟩
  · rw [hEncode, List.mem_singleton] at h
    rw [h]
  · rw [hEncode] at h
    rw [hOctets d h, hc]

end Octet

end WebTidy

------------------------------------------------------------
-- Texts
------------------------------------------------------------

namespace WebTidy

namespace Octet

/- The octets of a byte sequence, read from an index on. -/
theorem toList_loop
    (bytes : ByteArray)
    (i : Nat)
    (front : List UInt8) :
    ByteArray.toList.loop bytes i front =
      front.reverse ++ bytes.data.toList.drop i := by
  fun_induction ByteArray.toList.loop bytes i front with
  | case1 i front hInside ih =>
      have hIndex : i < bytes.data.toList.length := by
        simpa using hInside
      rw [ih, List.drop_eq_getElem_cons hIndex]
      simp [ByteArray.get!, hInside]
  | case2 i front hOutside =>
      have hEnd : bytes.data.toList.length ≤ i := by
        simpa using hOutside
      rw [List.drop_eq_nil_of_le hEnd, List.append_nil]

/- A text is encoded character by character. -/
theorem toUtf8_eq
    (s : Text) :
    toUtf8 s = s.flatMap encode := by
  have hList :
      (String.ofList s).toUTF8.toList =
        s.flatMap String.utf8EncodeChar := by
    rw [ByteArray.toList, toList_loop]
    simp [List.utf8Encode]
  rw [toUtf8, ofBytes, hList, List.map_flatMap]
  rfl

@[simp] theorem toUtf8_nil :
    toUtf8 [] = [] := by
  rw [toUtf8_eq]
  rfl

theorem toUtf8_cons
    (c : Char)
    (s : Text) :
    toUtf8 (c :: s) = encode c ++ toUtf8 s := by
  rw [toUtf8_eq, toUtf8_eq, List.flatMap_cons]

@[simp] theorem toUtf8_append
    (s t : Text) :
    toUtf8 (s ++ t) = toUtf8 s ++ toUtf8 t := by
  rw [toUtf8_eq, toUtf8_eq, toUtf8_eq, List.flatMap_append]

theorem toUtf8_flatMap
    {α : Type}
    (f : α → Text)
    (l : List α) :
    toUtf8 (l.flatMap f) = l.flatMap fun a => toUtf8 (f a) := by
  rw [toUtf8_eq, List.flatMap_assoc]
  congr 1
  funext a
  exact (toUtf8_eq (f a)).symm

/- An ASCII character in front of a text. -/
theorem toUtf8_cons_of_ascii
    {c : Char}
    (s : Text)
    (h : isWide c = false) :
    toUtf8 (c :: s) = c :: toUtf8 s := by
  rw [toUtf8_cons, encode_of_ascii h]
  rfl

/- An ASCII text is its own octets. -/
theorem toUtf8_of_ascii
    {s : Text}
    (h : s.any isWide = false) :
    toUtf8 s = s := by
  induction s with
  | nil => exact toUtf8_nil
  | cons c rest ih =>
      rw [List.any_cons, Bool.or_eq_false_iff] at h
      rw [toUtf8_cons_of_ascii rest h.1, ih h.2]

/- Bytes are the same when they are read and written. -/
theorem toBytes_ofBytes
    (bytes : ByteArray) :
    toBytes (ofBytes bytes) = bytes := by
  have hSame (b : UInt8) :
      (Char.ofNat b.toNat).toNat.toUInt8 = b := by
    rw [toNat_ofNat b.toNat_lt]
    simp
  rw [toBytes, ofBytes, List.map_map, ByteArray.toList,
    toList_loop]
  apply ByteArray.ext
  simp [Function.comp_def, hSame]

/- The octets of a text encode it. -/
@[simp] theorem ofUtf8?_toUtf8
    (s : Text) :
    ofUtf8? (toUtf8 s) = some s := by
  have hRead :
      String.fromUTF8? (String.ofList s).toUTF8 =
        some (String.ofList s) := by
    have hValid : (String.ofList s).toUTF8.IsValidUTF8 :=
      (String.ofList s).isValidUTF8
    rw [String.fromUTF8?, dif_pos hValid]
    rfl
  rw [ofUtf8?, toUtf8, toBytes_ofBytes, hRead]
  simp

/- So different texts have different octets. -/
@[simp] theorem toUtf8_inj
    {s t : Text} :
    toUtf8 s = toUtf8 t ↔ s = t := by
  constructor
  · intro h
    have hSame := congrArg ofUtf8? h
    rwa [ofUtf8?_toUtf8, ofUtf8?_toUtf8, Option.some_inj]
      at hSame
  · rintro rfl
    rfl

@[simp] theorem toUtf8_eq_nil_iff
    {s : Text} :
    toUtf8 s = [] ↔ s = [] := by
  constructor
  · intro h
    rwa [← toUtf8_nil, toUtf8_inj] at h
  · rintro rfl
    exact toUtf8_nil

/- A function on texts applies to their octets. -/
theorem mapUtf8_toUtf8
    (f : Text → Text)
    (s : Text) :
    mapUtf8 f (toUtf8 s) = toUtf8 (f s) := by
  rw [mapUtf8, ofUtf8?_toUtf8]

end Octet

end WebTidy

------------------------------------------------------------
-- Classes Of Characters
------------------------------------------------------------

namespace WebTidy

namespace Octet

/-
  A class that has all characters beyond ASCII, or none of
  them.
-/
def TreatsWide
    (p : Char → Bool)
    (b : Bool) :
    Prop :=
  ∀ c, isWide c = true → p c = b

variable
  {p : Char → Bool}
  {b : Bool}

/- The other class treats them the other way. -/
theorem TreatsWide.not
    (h : TreatsWide p b) :
    TreatsWide (fun c => !p c) (!b) := by
  intro c hc
  simp only [h c hc]

/- No ASCII character is beyond ASCII. -/
theorem ne_of_isWide
    {c d : Char}
    (hc : isWide c = true)
    (hd : isWide d = false) :
    c ≠ d := by
  rintro rfl
  rw [hc] at hd
  cases hd

/- The class of one ASCII character. -/
theorem treatsWide_eq
    {d : Char}
    (hd : isWide d = false) :
    TreatsWide (fun c => c = d) false := by
  intro c hc
  exact decide_eq_false (ne_of_isWide hc hd)

/- A class of ASCII characters. -/
theorem treatsWide_false
    (h : ∀ c, p c = true → isWide c = false) :
    TreatsWide p false := by
  intro c hc
  rw [Bool.eq_false_iff]
  intro hMem
  rw [h c hMem] at hc
  cases hc

/- A text in such a class is ASCII. -/
theorem TreatsWide.any_isWide
    (h : TreatsWide p false)
    {s : Text}
    (hs : s.all p = true) :
    s.any isWide = false := by
  rw [List.any_eq_false]
  intro c hc hWide
  have hMem := List.all_eq_true.mp hs c hc
  rw [h c hWide] at hMem
  cases hMem

/- Blanks are ASCII characters. -/
theorem treatsWide_isBlank :
    TreatsWide isBlank false := by
  apply treatsWide_false
  intro c hc
  simp only [isBlank, decide_eq_true_eq] at hc
  rcases hc with rfl | rfl | rfl | rfl | rfl <;> rfl

/- So are letters and digits. -/
theorem isAlphanum_of_isWide
    {c : Char}
    (hc : isWide c = true) :
    c.isAlphanum = false := by
  have hLarge : 0x80 ≤ c.toNat := by
    simpa [isWide] using hc
  change
    ((decide ('A'.val ≤ c.val ∧ c.val ≤ 'Z'.val) ||
      ('a'.val ≤ c.val && c.val ≤ 'z'.val)) ||
      ('0'.val ≤ c.val && c.val ≤ '9'.val)) = false
  simp [UInt32.le_iff_toNat_le]
  omega

/- The characters of a class at the start of a text. -/
theorem takeWhile_toUtf8
    (h : TreatsWide p b)
    (s : Text) :
    (toUtf8 s).takeWhile p = toUtf8 (s.takeWhile p) := by
  induction s with
  | nil => rw [toUtf8_nil, List.takeWhile_nil, toUtf8_nil]
  | cons c rest ih =>
      rcases encode_cases c with
        ⟨hc, _⟩ | ⟨hc, d, more, hEncode, hOctets⟩
      · rw [toUtf8_cons_of_ascii rest hc, List.takeWhile_cons,
          List.takeWhile_cons, ih]
        split
        · rw [toUtf8_cons_of_ascii _ hc]
        · rw [toUtf8_nil]
      · rw [toUtf8_cons, hEncode, List.takeWhile_cons]
        cases b with
        | false =>
            rw [h c hc, if_neg (by simp), List.cons_append,
              List.takeWhile_cons_of_neg, toUtf8_nil]
            simp [h d (hOctets d (by simp))]
        | true =>
            rw [h c hc, if_pos rfl, toUtf8_cons, hEncode,
              ← ih, List.takeWhile_append_of_pos]
            exact fun e he => h e (hOctets e he)

/- What is left of a text behind them. -/
theorem dropWhile_toUtf8
    (h : TreatsWide p b)
    (s : Text) :
    (toUtf8 s).dropWhile p = toUtf8 (s.dropWhile p) := by
  have hTake := takeWhile_toUtf8 h s
  have hWhole :
      (toUtf8 s).takeWhile p ++ (toUtf8 s).dropWhile p =
        (toUtf8 s).takeWhile p ++
          toUtf8 (s.dropWhile p) := by
    rw [List.takeWhile_append_dropWhile, hTake,
      ← toUtf8_append, List.takeWhile_append_dropWhile]
  exact List.append_cancel_left hWhole

/- A text and its octets are both of a class or not. -/
theorem all_toUtf8
    (h : TreatsWide p b)
    (s : Text) :
    (toUtf8 s).all p = s.all p := by
  have hWhole (t : Text) :
      t.all p = true ↔ t.dropWhile p = [] := by
    rw [List.all_eq_true, List.dropWhile_eq_nil_iff]
  rw [Bool.eq_iff_iff, hWhole, hWhole, dropWhile_toUtf8 h,
    toUtf8_eq_nil_iff]

/- The first character of a text in a class of ASCII. -/
theorem find?_toUtf8
    (h : TreatsWide p false)
    (s : Text) :
    (toUtf8 s).find? p = s.find? p := by
  induction s with
  | nil => rw [toUtf8_nil]
  | cons c rest ih =>
      rcases encode_cases c with
        ⟨hc, _⟩ | ⟨hc, d, more, hEncode, hOctets⟩
      · rw [toUtf8_cons_of_ascii rest hc, List.find?_cons,
          List.find?_cons, ih]
      · have hNone : (d :: more).find? p = none := by
          rw [List.find?_eq_none]
          intro e he
          simp [h e (hOctets e he)]
        rw [toUtf8_cons, hEncode, List.find?_append, hNone,
          ih, List.find?_cons_of_neg (by simp [h c hc])]
        rfl

end Octet

end WebTidy

------------------------------------------------------------
-- Ends Of Texts
------------------------------------------------------------

namespace WebTidy

namespace Octet

variable
  {p : Char → Bool}
  {b : Bool}

/- The first octet of a character. -/
def first
    (c : Char) :
    Char :=
  (encode c).headD c

/- The last octet of a character. -/
def last
    (c : Char) :
    Char :=
  (encode c).getLastD c

theorem first_mem
    (c : Char) :
    first c ∈ encode c := by
  rcases encode_cases c with
    ⟨_, hEncode⟩ | ⟨_, d, more, hEncode, _⟩
  · simp [first, hEncode]
  · simp [first, hEncode]

theorem last_mem
    (c : Char) :
    last c ∈ encode c := by
  rcases encode_cases c with
    ⟨_, hEncode⟩ | ⟨_, d, more, hEncode, _⟩
  · simp [last, hEncode]
  · rw [last, hEncode, List.getLastD_cons]
    exact List.getLastD_mem_cons

/- An octet of a character is in the same classes. -/
theorem TreatsWide.eq_of_mem_encode
    (h : TreatsWide p b)
    {c d : Char}
    (hd : d ∈ encode c) :
    p d = p c := by
  cases hc : isWide c with
  | false =>
      rw [encode_of_ascii hc, List.mem_singleton] at hd
      rw [hd]
  | true =>
      have hWide : isWide d = true :=
        (isWide_of_mem_encode hd).trans hc
      rw [h c hc, h d hWide]

/- A choice that no class tells from the character. -/
def Keeps
    (f : Char → Char) :
    Prop :=
  ∀ (p : Char → Bool) (b : Bool),
    TreatsWide p b → ∀ c, p (f c) = p c

/- The character itself, -/
theorem keeps_id :
    Keeps id := by
  intro p b _ c
  rfl

/- its first octet and its last are such choices. -/
theorem keeps_first :
    Keeps first := by
  intro p b h c
  exact h.eq_of_mem_encode (first_mem c)

theorem keeps_last :
    Keeps last := by
  intro p b h c
  exact h.eq_of_mem_encode (last_mem c)

section Choice

variable
  {f : Char → Char}
  (hf : Keeps f)

include hf

/- The choice decides like the character, -/
theorem TreatsWide.comp_eq
    (h : TreatsWide p b) :
    (fun c => p (f c)) = p := by
  funext c
  exact hf p b h c

/- and it is an ASCII character if the character is. -/
theorem map_eq_some_iff
    {d : Char}
    (hd : isWide d = false)
    (o : Option Char) :
    o.map f = some d ↔ o = some d := by
  cases o with
  | none => simp
  | some c =>
      have hSame := hf _ _ (treatsWide_eq hd) c
      rw [Option.map_some, Option.some_inj, Option.some_inj]
      simpa [decide_eq_decide] using hSame

end Choice

theorem head?_toUtf8
    (s : Text) :
    (toUtf8 s).head? = s.head?.map first := by
  cases s with
  | nil => rw [toUtf8_nil]; rfl
  | cons c rest =>
      rcases encode_cases c with
        ⟨_, hEncode⟩ | ⟨hc, d, more, hEncode, hOctets⟩
      · simp [toUtf8_cons, first, hEncode]
      · simp [toUtf8_cons, first, hEncode]

theorem getLast?_toUtf8
    (s : Text) :
    (toUtf8 s).getLast? = s.getLast?.map last := by
  rcases List.eq_nil_or_concat' s with rfl | ⟨t, c, rfl⟩
  · rw [toUtf8_nil]; rfl
  · rcases encode_cases c with
      ⟨_, hEncode⟩ | ⟨hc, d, more, hEncode, hOctets⟩
    · simp [toUtf8_cons, last, hEncode]
    · simp [toUtf8_cons, last, hEncode,
        List.getLast?_eq_some_getLast]

end Octet

end WebTidy

------------------------------------------------------------
-- Trimming And Folding
------------------------------------------------------------

namespace WebTidy

namespace Octet

variable
  {p : Char → Bool}
  {b : Bool}

theorem trimEnd_toUtf8
    (h : TreatsWide p b)
    (s : Text) :
    Text.trimEnd p (toUtf8 s) = toUtf8 (s.trimEnd p) := by
  rcases Text.exists_trimEnd_append p s with
    ⟨tail, hTail, hs⟩
  have hLast :
      (toUtf8 (s.trimEnd p)).getLast?.all (!p ·) = true := by
    have hSame (c : Char) : p (last c) = p c :=
      h.eq_of_mem_encode (last_mem c)
    rw [getLast?_toUtf8, Option.all_map]
    simpa [Function.comp_def, hSame] using
      Text.trimEnd_ends p s
  calc
    Text.trimEnd p (toUtf8 s)
        = Text.trimEnd p
            (toUtf8 (s.trimEnd p) ++ toUtf8 tail) := by
          rw [← toUtf8_append, ← hs]
    _ = toUtf8 (s.trimEnd p) :=
          Text.trimEnd_append
            (by rw [all_toUtf8 h, hTail]) hLast

/- Texts and octets may be given backwards. -/
theorem dropWhile_reverse_toUtf8
    (h : TreatsWide p b)
    (s : Text) :
    (toUtf8 s.reverse).reverse.dropWhile p =
      (toUtf8 (s.dropWhile p).reverse).reverse := by
  have hTrim := trimEnd_toUtf8 h s.reverse
  rw [Text.trimEnd, Text.trimEnd, List.reverse_reverse] at hTrim
  rw [← hTrim, List.reverse_reverse]

theorem trim_toUtf8
    (h : TreatsWide p b)
    (s : Text) :
    Text.trim p (toUtf8 s) = toUtf8 (s.trim p) := by
  rw [Text.trim, Text.trim, dropWhile_toUtf8 h,
    trimEnd_toUtf8 h]

/- Characters outside a class are not folded. -/
theorem foldFrom_cons_append
    {c : Char}
    {more : Text}
    (inRun : Bool)
    (rest : Text)
    (h : ∀ d ∈ c :: more, p d = false) :
    Text.foldFrom p inRun (c :: more ++ rest) =
      c :: more ++ Text.foldFrom p false rest := by
  have hc : p c = false := h c (by simp)
  induction more generalizing inRun c with
  | nil => simp [Text.foldFrom, hc]
  | cons d more ih =>
      have hMore : ∀ e ∈ d :: more, p e = false :=
        fun e he => h e (by simp [List.mem_cons.mp he])
      rw [List.cons_append, Text.foldFrom, if_neg (by simp [hc]),
        ih false hMore (hMore d (by simp))]
      rfl

theorem foldFrom_toUtf8
    (h : TreatsWide p false)
    (inRun : Bool)
    (s : Text) :
    Text.foldFrom p inRun (toUtf8 s) =
      toUtf8 (s.foldFrom p inRun) := by
  induction s generalizing inRun with
  | nil => simp [Text.foldFrom]
  | cons c rest ih =>
      rcases encode_cases c with
        ⟨hc, _⟩ | ⟨hc, d, more, hEncode, hOctets⟩
      · rw [toUtf8_cons_of_ascii rest hc, Text.foldFrom,
          Text.foldFrom, ih, ih]
        cases p c with
        | false =>
            simp only [Bool.false_eq_true, if_false]
            rw [toUtf8_cons_of_ascii _ hc]
        | true =>
            cases inRun with
            | true => rfl
            | false =>
                simp only [Bool.false_eq_true, if_false,
                  if_true]
                rw [toUtf8_cons_of_ascii _ (by decide)]
      · have hNone : ∀ e ∈ d :: more, p e = false :=
          fun e he => h e (hOctets e he)
        rw [toUtf8_cons, hEncode,
          foldFrom_cons_append inRun _ hNone, ih,
          Text.foldFrom, if_neg (by simp [h c hc]),
          toUtf8_cons, hEncode]

theorem fold_toUtf8
    (h : TreatsWide p false)
    (s : Text) :
    Text.fold p (toUtf8 s) = toUtf8 (s.fold p) := by
  exact foldFrom_toUtf8 h false s

end Octet

end WebTidy

------------------------------------------------------------
-- Marks
------------------------------------------------------------

namespace WebTidy

namespace Octet

variable
  {mark : Text}

/- An ASCII mark is found in front of a text. -/
theorem prefix_toUtf8_iff
    (hMark : mark.any isWide = false)
    (s : Text) :
    mark <+: toUtf8 s ↔ mark <+: s := by
  induction mark generalizing s with
  | nil => simp
  | cons m mark ih =>
      rw [List.any_cons, Bool.or_eq_false_iff] at hMark
      cases s with
      | nil => simp
      | cons c rest =>
          rcases encode_cases c with
            ⟨hc, _⟩ | ⟨hc, d, more, hEncode, hOctets⟩
          · rw [toUtf8_cons_of_ascii rest hc,
              List.cons_prefix_cons, List.cons_prefix_cons,
              ih hMark.2]
          · rw [toUtf8_cons, hEncode, List.cons_append,
              List.cons_prefix_cons, List.cons_prefix_cons]
            constructor
            · rintro ⟨rfl, _⟩
              rw [hOctets m (by simp)] at hMark
              cases hMark.1
            · rintro ⟨rfl, _⟩
              rw [hc] at hMark
              cases hMark.1

/- It does not end inside characters beyond ASCII, -/
theorem suffix_append_iff
    (hMark : mark.any isWide = false)
    {wide : Text}
    (hWide : ∀ c ∈ wide, isWide c = true)
    (s : Text) :
    mark <:+ wide ++ s ↔ mark <:+ s := by
  induction wide with
  | nil => rfl
  | cons c wide ih =>
      rw [List.cons_append, List.suffix_cons_iff,
        ih fun d hd => hWide d (by simp [hd])]
      constructor
      · rintro (rfl | hSuffix)
        · rw [List.any_cons, hWide c (by simp)] at hMark
          cases hMark
        · exact hSuffix
      · exact Or.inr

/- so it is found at the end of a text, too. -/
theorem suffix_toUtf8_iff
    (hMark : mark.any isWide = false)
    (s : Text) :
    mark <:+ toUtf8 s ↔ mark <:+ s := by
  induction s with
  | nil => rw [toUtf8_nil]
  | cons c rest ih =>
      cases hc : isWide c with
      | false =>
          have hWhole :
              mark = toUtf8 (c :: rest) ↔ mark = c :: rest := by
            conv_lhs => rw [← toUtf8_of_ascii hMark]
            exact toUtf8_inj
          rw [toUtf8_cons_of_ascii rest hc] at hWhole ⊢
          rw [List.suffix_cons_iff, List.suffix_cons_iff,
            hWhole, ih]
      | true =>
          have hOctets (d : Char) (hd : d ∈ encode c) :
              isWide d = true :=
            (isWide_of_mem_encode hd).trans hc
          have hOne : ∀ d ∈ [c], isWide d = true := by
            simpa using hc
          rw [toUtf8_cons, suffix_append_iff hMark hOctets, ih,
            ← suffix_append_iff hMark hOne]
          rfl

/- A capital and its small letter are ASCII characters. -/
theorem toLower_cases
    (c : Char) :
    c.toLower = c ∨
      (isWide c = false ∧ isWide c.toLower = false) := by
  by_cases hCapital : c.val ≥ 'A'.val ∧ c.val ≤ 'Z'.val
  · right
    have hRange : 65 ≤ c.val.toNat ∧ c.val.toNat ≤ 90 := by
      simpa [UInt32.le_iff_toNat_le] using hCapital
    have hSmall : c.toLower = _ := dif_pos hCapital
    have hLower : c.toLower.val.toNat = c.val.toNat + 32 := by
      rw [hSmall]
      simp only [UInt32.toNat_add]
      change (c.val.toNat + 32) % 4294967296 = _
      omega
    simp only [isWide, ← Char.toNat_val, hLower,
      decide_eq_false_iff_not]
    omega
  · left
    exact dif_neg hCapital

/- Small letters are ASCII characters as capitals are. -/
theorem any_isWide_lower
    (s : Text) :
    s.lower.any isWide = s.any isWide := by
  have hSame (c : Char) : isWide c.toLower = isWide c := by
    rcases toLower_cases c with hStays | ⟨hc, hLower⟩
    · rw [hStays]
    · rw [hc, hLower]
  rw [Text.lower, List.any_map]
  congr 1
  funext c
  exact hSame c

/- Lowering letters and encoding them. -/
theorem lower_toUtf8
    (s : Text) :
    Text.lower (toUtf8 s) = toUtf8 s.lower := by
  induction s with
  | nil => simp [Text.lower]
  | cons c rest ih =>
      have hRest :
          (toUtf8 rest).map Char.toLower =
            toUtf8 (rest.map Char.toLower) := ih
      rw [Text.lower, Text.lower, List.map_cons, toUtf8_cons,
        toUtf8_cons, List.map_append, hRest]
      congr 1
      rcases encode_cases c with
        ⟨hc, hEncode⟩ | ⟨hc, d, more, hEncode, hOctets⟩
      · rcases toLower_cases c with hSame | ⟨_, hLower⟩
        · rw [hEncode, List.map_singleton, hSame, hEncode]
        · rw [hEncode, encode_of_ascii hLower,
            List.map_singleton]
      · have hStays {e : Char} (he : isWide e = true) :
            e.toLower = e := by
          rcases toLower_cases e with hSame | ⟨hNot, _⟩
          · exact hSame
          · rw [he] at hNot
            cases hNot
        rw [hStays hc, hEncode]
        have hOctet (e : Char) (he : e ∈ d :: more) :
            e.toLower = id e :=
          hStays (hOctets e he)
        rw [List.map_congr_left hOctet, List.map_id]

/- Texts have the same letters as their octets have. -/
theorem sameLetters_toUtf8
    (s t : Text) :
    Text.sameLetters (toUtf8 s) (toUtf8 t) =
      Text.sameLetters s t := by
  rw [Text.sameLetters, Text.sameLetters, lower_toUtf8,
    lower_toUtf8, Bool.eq_iff_iff, decide_eq_true_eq,
    decide_eq_true_eq, toUtf8_inj]

/- An ASCII mark begins a text in any case of its letters. -/
theorem beginsWith_toUtf8
    (hMark : mark.any isWide = false)
    (s : Text) :
    Text.beginsWith mark (toUtf8 s) =
      Text.beginsWith mark s := by
  induction mark generalizing s with
  | nil => rfl
  | cons m mark ih =>
      rw [List.any_cons, Bool.or_eq_false_iff] at hMark
      have hDiffer {c : Char} (hc : isWide c = true) :
          decide (c.toLower = m.toLower) = false := by
        rw [decide_eq_false_iff_not]
        intro hSame
        have hm : isWide m.toLower = false := by
          rcases toLower_cases m with hStays | ⟨_, hLower⟩
          · rw [hStays, hMark.1]
          · exact hLower
        rcases toLower_cases c with hStays | ⟨hNot, _⟩
        · rw [← hSame, hStays, hc] at hm
          cases hm
        · rw [hc] at hNot
          cases hNot
      cases s with
      | nil => rw [toUtf8_nil]
      | cons c rest =>
          rcases encode_cases c with
            ⟨hc, _⟩ | ⟨hc, d, more, hEncode, hOctets⟩
          · rw [toUtf8_cons_of_ascii rest hc,
              Text.beginsWith_cons, Text.beginsWith_cons,
              ih hMark.2]
          · rw [toUtf8_cons, hEncode, List.cons_append,
              Text.beginsWith_cons, Text.beginsWith_cons,
              hDiffer hc, hDiffer (hOctets d (by simp)),
              Bool.false_and, Bool.false_and]

end Octet

end WebTidy
