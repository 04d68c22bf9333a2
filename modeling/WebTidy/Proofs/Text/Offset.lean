import WebTidy.Proofs.Text.Octet

/-
  Places of a text among its octets.

  A place between two characters is a place between two
  octets, where the octets can be cut.  What is found by
  ASCII characters is found at the place of the same
  character.

  Key definitions include:
    * `WebTidy.Octet.offset`

  Key theorems include:
    * `WebTidy.Octet.take_offset`
    * `WebTidy.Octet.drop_offset`
    * `WebTidy.Octet.isBoundary_offset`
    * `WebTidy.Octet.search_toUtf8_cons`
    * `WebTidy.Octet.indexOf?_toUtf8`
-/

------------------------------------------------------------
-- Places
------------------------------------------------------------

namespace WebTidy

namespace Octet

/- The index of a place of a text among its octets. -/
def offset
    (s : Text)
    (n : Nat) :
    Nat :=
  (toUtf8 (s.take n)).length

@[simp] theorem offset_zero
    (s : Text) :
    offset s 0 = 0 := by
  simp [offset]

theorem offset_cons
    (c : Char)
    (s : Text)
    (n : Nat) :
    offset (c :: s) (n + 1) =
      (encode c).length + offset s n := by
  rw [offset, offset, List.take_succ_cons, toUtf8_cons,
    List.length_append]

/- The whole text. -/
theorem offset_length
    (s : Text) :
    offset s s.length = (toUtf8 s).length := by
  rw [offset, List.take_length]

/- The octets in front of a place. -/
theorem take_offset
    (s : Text)
    (n : Nat) :
    (toUtf8 s).take (offset s n) = toUtf8 (s.take n) := by
  have hWhole :
      toUtf8 s = toUtf8 (s.take n) ++ toUtf8 (s.drop n) := by
    rw [← toUtf8_append, List.take_append_drop]
  rw [hWhole, offset, List.take_left]

/- The octets behind it. -/
theorem drop_offset
    (s : Text)
    (n : Nat) :
    (toUtf8 s).drop (offset s n) = toUtf8 (s.drop n) := by
  have hWhole :
      toUtf8 s = toUtf8 (s.take n) ++ toUtf8 (s.drop n) := by
    rw [← toUtf8_append, List.take_append_drop]
  rw [hWhole, offset, List.drop_left]

/- The octet at a place. -/
theorem getElem?_offset
    (s : Text)
    (n : Nat) :
    (toUtf8 s)[offset s n]? = s[n]?.map first := by
  rw [← List.head?_drop, drop_offset, head?_toUtf8,
    List.head?_drop]

/- One place behind another. -/
theorem offset_add
    (s : Text)
    (m n : Nat) :
    offset s (m + n) = offset s m + offset (s.drop m) n := by
  rw [offset, offset, offset, List.take_add, toUtf8_append,
    List.length_append]

/- A place behind ASCII characters in front, -/
theorem offset_append
    {front : Text}
    (hFront : front.any isWide = false)
    (s : Text)
    (n : Nat) :
    offset (front ++ s) (front.length + n) =
      front.length + offset s n := by
  rw [offset_add, List.drop_left, offset, List.take_left,
    toUtf8_of_ascii hFront]

/- and behind ASCII characters at another place. -/
theorem offset_add_of_prefix
    {front s : Text}
    {n : Nat}
    (hFront : front.any isWide = false)
    (h : front <+: s.drop n) :
    offset s (n + front.length) =
      offset s n + front.length := by
  rcases h with ⟨rest, hRest⟩
  rw [offset_add, ← hRest, offset, offset, List.take_left,
    toUtf8_of_ascii hFront]

/- A place of the start of a text. -/
theorem offset_take
    {m n : Nat}
    (h : m ≤ n)
    (s : Text) :
    offset (s.take n) m = offset s m := by
  rw [offset, List.take_take, Nat.min_eq_left h, offset]

/- Places are in the same order. -/
theorem offset_lt_offset_iff
    {s : Text}
    {m n : Nat}
    (hInside : n ≤ s.length) :
    offset s m < offset s n ↔ m < n := by
  rcases Nat.lt_or_ge m n with hLess | hNot
  · rcases Nat.exists_eq_add_of_lt hLess with ⟨k, rfl⟩
    have hSome : (s.drop m).take (k + 1) ≠ [] := by
      rw [ne_eq, List.take_eq_nil_iff, List.drop_eq_nil_iff]
      omega
    have hPos : 0 < offset (s.drop m) (k + 1) :=
      List.length_pos_iff.mpr (mt toUtf8_eq_nil_iff.mp hSome)
    rw [Nat.add_assoc, offset_add]
    omega
  · rcases Nat.exists_eq_add_of_le hNot with ⟨k, rfl⟩
    rw [offset_add]
    omega

/-
  The octets of a text can be cut at every place of it,
  since no character begins with an octet that continues
  one.
-/
theorem isBoundary_offset
    (s : Text)
    (n : Nat) :
    isBoundary (toUtf8 s) (offset s n) = true := by
  have hInside : offset s n ≤ (toUtf8 s).length := by
    have hTake := congrArg List.length (take_offset s n)
    rw [List.length_take, ← offset] at hTake
    omega
  have hFirst (c : Char) :
      isContinuation (Octet.first c) = false := by
    cases hc : isWide c with
    | false =>
        rw [Octet.first, encode_of_ascii hc,
          List.headD_cons, Bool.eq_false_iff]
        intro hContinues
        rw [isWide_of_isContinuation hContinues] at hc
        cases hc
    | true =>
        rcases exists_encode hc with
          ⟨d, more, hEncode, _, hStart, _, _⟩
        rw [Octet.first, hEncode, List.headD_cons, hStart]
  simp only [isBoundary, decide_eq_true_eq, getElem?_offset]
  refine ⟨hInside, ?_⟩
  cases s[n]? with
  | none => rfl
  | some c => simp [hFirst]

end Octet

end WebTidy

------------------------------------------------------------
-- Searching
------------------------------------------------------------

namespace WebTidy

namespace Octet

variable
  {mark : Text}

section Search

variable
  {f : Text → Option Nat}
  (hPass :
    ∀ c rest, isWide c = true →
      f (c :: rest) = (f rest).map (· + 1))

include hPass

/- A search that passes over characters beyond ASCII. -/
theorem search_wide
    {wide : Text}
    (hWide : ∀ c ∈ wide, isWide c = true)
    (rest : Text) :
    f (wide ++ rest) = (f rest).map (wide.length + ·) := by
  induction wide with
  | nil => simp
  | cons c wide ih =>
      rw [List.cons_append, hPass c _ (hWide c (by simp)),
        ih fun d hd => hWide d (by simp [hd]),
        Option.map_map]
      congr 1
      funext n
      simp only [Function.comp_apply, List.length_cons]
      omega

/- It passes over their octets. -/
theorem search_toUtf8_cons
    {c : Char}
    {rest : Text}
    (hc : isWide c = true)
    (hRest : f (toUtf8 rest) = (f rest).map (offset rest)) :
    f (toUtf8 (c :: rest)) =
      (f (c :: rest)).map (offset (c :: rest)) := by
  have hOctets (e : Char) (he : e ∈ encode c) :
      isWide e = true :=
    (isWide_of_mem_encode he).trans hc
  rw [toUtf8_cons, search_wide hPass hOctets, hRest,
    hPass c rest hc, Option.map_map, Option.map_map]
  congr 1
  funext n
  rw [Function.comp_apply, Function.comp_apply, offset_cons]

end Search

/- ASCII characters in front of the text that is searched. -/
theorem map_offset_append
    {front : Text}
    (hFront : front.any isWide = false)
    (s : Text)
    (found : Option Nat) :
    (found.map (offset s)).map (· + front.length) =
      (found.map (· + front.length)).map
        (offset (front ++ s)) := by
  rw [Option.map_map, Option.map_map]
  congr 1
  funext n
  simp only [Function.comp_apply]
  rw [Nat.add_comm n, offset_append hFront, Nat.add_comm]

/- An ASCII mark is found at the same place. -/
theorem indexOf?_toUtf8
    (hSome : mark ≠ [])
    (hMark : mark.any isWide = false)
    (s : Text) :
    Text.indexOf? mark (toUtf8 s) =
      (Text.indexOf? mark s).map (offset s) := by
  -- No ASCII mark begins at a character beyond ASCII.
  have hPass (c : Char) (rest : Text) (hc : isWide c = true) :
      Text.indexOf? mark (c :: rest) =
        (Text.indexOf? mark rest).map (· + 1) := by
    rw [Text.indexOf?, if_neg]
    cases mark with
    | nil => exact absurd rfl hSome
    | cons m mark =>
        rw [List.any_cons, Bool.or_eq_false_iff] at hMark
        rw [List.cons_prefix_cons, not_and]
        exact fun hSame =>
          absurd hSame.symm (ne_of_isWide hc hMark.1)
  induction s with
  | nil => simp [Text.indexOf?, hSome]
  | cons c rest ih =>
      cases hc : isWide c with
      | true => exact search_toUtf8_cons hPass hc ih
      | false =>
          have hOne : [c].any isWide = false := by
            simpa using hc
          have hPrefix := prefix_toUtf8_iff hMark (c :: rest)
          rw [toUtf8_cons_of_ascii rest hc] at hPrefix ⊢
          rw [Text.indexOf?, Text.indexOf?]
          by_cases hHere : mark <+: c :: rest
          · rw [if_pos hHere, if_pos (hPrefix.mpr hHere)]
            simp
          · rw [if_neg hHere, if_neg (mt hPrefix.mp hHere),
              ih]
            exact map_offset_append hOne rest _

/- So is the last place of an ASCII character. -/
theorem lastIndexOf?_toUtf8
    {c : Char}
    (hc : isWide c = false)
    (s : Text) :
    Text.lastIndexOf? c (toUtf8 s) =
      (Text.lastIndexOf? c s).map (offset s) := by
  have hPass (d : Char) (rest : Text) (hd : isWide d = true) :
      Text.lastIndexOf? c (d :: rest) =
        (Text.lastIndexOf? c rest).map (· + 1) := by
    rw [Text.lastIndexOf?, if_neg (ne_of_isWide hd hc)]
    cases Text.lastIndexOf? c rest with
    | none => rfl
    | some n => rfl
  induction s with
  | nil => simp [Text.lastIndexOf?]
  | cons d rest ih =>
      cases hd : isWide d with
      | true => exact search_toUtf8_cons hPass hd ih
      | false =>
          rw [toUtf8_cons_of_ascii rest hd,
            Text.lastIndexOf?, Text.lastIndexOf?, ih]
          cases Text.lastIndexOf? c rest with
          | none =>
              by_cases hSame : d = c
              · simp [hSame]
              · simp [hSame]
          | some n =>
              simp [offset_cons, encode_of_ascii hd,
                Nat.add_comm]

end Octet

end WebTidy
