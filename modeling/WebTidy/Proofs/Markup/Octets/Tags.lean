import WebTidy.Proofs.Markup.Kind
import WebTidy.Proofs.Markup.Octets.Tokens
import WebTidy.Proofs.Text.Slice

/-
  Tags read as octets.

  The head of a tag is ASCII, so it is the same for a tag
  and for its octets.  The normal form of the octets is that
  of the tag, in octets: blanks and quotes are found at the
  same places, and every value is a text.

  Key theorems include:
    * `WebTidy.Markup.Tag.head?_toUtf8`
    * `WebTidy.Markup.Tag.headOfOctets?_toUtf8`
    * `WebTidy.Markup.Tag.normalizeOctets_toUtf8`
-/

------------------------------------------------------------
-- Heads
------------------------------------------------------------

namespace WebTidy

namespace Markup

namespace Tag

open Octet

/- A name is its own octets. -/
theorem takeWhile_name_toUtf8
    (s : Text) :
    (toUtf8 s).takeWhile isNameChar =
      s.takeWhile isNameChar := by
  have hAscii : (s.takeWhile isNameChar).any isWide = false :=
    treatsWide_isNameChar.any_isWide List.all_takeWhile
  rw [takeWhile_toUtf8 treatsWide_isNameChar,
    toUtf8_of_ascii hAscii]

/- What follows the first octet of a tag is read alike. -/
theorem Head.read_toUtf8
    (tag inner : Text) :
    Head.read (toUtf8 tag) (toUtf8 inner) =
      Head.read tag inner := by
  have hEnd :
      (toUtf8 inner).head? = some '/' ↔
        inner.head? = some '/' := by
    rw [Octet.head?_toUtf8,
      map_eq_some_iff keeps_first (by decide)]
  have hInner :
      (if inner.head? = some '/' then (toUtf8 inner).drop 1
        else toUtf8 inner) =
        toUtf8
          (if inner.head? = some '/' then inner.drop 1
            else inner) := by
    split
    · rename_i hSlash
      rcases List.head?_eq_some_iff.mp hSlash with ⟨rest, rfl⟩
      rw [toUtf8_cons_of_ascii rest (by decide)]
      rfl
    · rfl
  have hClosing :
      "/>".toList <:+ Text.trimEnd isBlank (toUtf8 tag) ↔
        "/>".toList <:+ tag.trimEnd isBlank := by
    rw [trimEnd_toUtf8 treatsWide_isBlank]
    exact suffix_toUtf8_iff (by decide) _
  simp only [Head.read, hEnd, hInner,
    dropWhile_toUtf8 treatsWide_isBlank,
    takeWhile_name_toUtf8, hClosing]

/- The head of a tag is that of its octets. -/
theorem head?_toUtf8
    (tag : Text) :
    head? (toUtf8 tag) = head? tag := by
  cases tag with
  | nil => rw [toUtf8_nil]
  | cons c rest =>
      have hNone := Head.read_toUtf8 (c :: rest) []
      have hRest := Head.read_toUtf8 (c :: rest) rest
      rw [toUtf8_nil] at hNone
      rcases encode_cases c with
        ⟨hc, _⟩ | ⟨hc, d, more, hEncode, hOctets⟩
      · have hSmall : c.toNat < 0x80 := by
          simpa [isWide] using hc
        rw [toUtf8_cons_of_ascii rest hc] at hRest ⊢
        simp only [head?, if_pos hSmall, hRest]
      · have hLarge {e : Char} (he : isWide e = true) :
            ¬ e.toNat < 0x80 := by
          simpa [isWide] using he
        rw [toUtf8_cons, hEncode, List.cons_append] at hNone ⊢
        simp only [head?, if_neg (hLarge hc),
          if_neg (hLarge (hOctets d (by simp))), hNone]

/- There is no name beyond ASCII. -/
theorem Head.read_wide
    {c : Char}
    (hc : isWide c = true)
    (tag inner : Text) :
    Head.read tag (c :: inner) = Head.read tag [] := by
  have hSlash : c ≠ '/' := ne_of_isWide hc (by decide)
  have hBlank : isBlank c = false := treatsWide_isBlank c hc
  have hName : isNameChar c = false :=
    treatsWide_isNameChar c hc
  simp [Head.read, hSlash, hBlank, hName]

/-
  It is what is read of the octets.  Those that continue a
  character are neither slashes nor in a name.
-/
theorem headOfOctets?_toUtf8
    (tag : Text) :
    headOfOctets? (toUtf8 tag) = head? tag := by
  cases tag with
  | nil => rw [toUtf8_nil, headOfOctets?, head?]
  | cons c rest =>
      have hRead := Head.read_toUtf8 (c :: rest)
      cases hc : isWide c with
      | false =>
          have hSmall : c.toNat < 0x80 := by
            simpa [isWide] using hc
          have hSame := hRead rest
          rw [toUtf8_cons_of_ascii rest hc] at hSame ⊢
          rw [headOfOctets?, head?, if_pos hSmall, hSame]
      | true =>
          have hLarge : ¬ c.toNat < 0x80 := by
            simpa [isWide] using hc
          rcases exists_encode hc with
            ⟨d, more, hEncode, _, _, hMore, hAll⟩
          rcases List.exists_cons_of_ne_nil hMore with
            ⟨e, others, rfl⟩
          have hWide : isWide e = true :=
            isWide_of_isContinuation
              (List.all_eq_true.mp hAll e (by simp))
          have hNone := hRead []
          rw [toUtf8_nil] at hNone
          rw [head?, if_neg hLarge, ← hNone, toUtf8_cons,
            hEncode, List.cons_append, List.cons_append,
            headOfOctets?, Head.read_wide hWide]

/- So are the marks of declarations. -/
theorem isDeclaration_toUtf8
    (tag : Text) :
    isDeclaration (toUtf8 tag) = isDeclaration tag := by
  have hOpen : "<!".toList.any isWide = false := by decide
  have hQuery : "<?".toList.any isWide = false := by decide
  simp only [isDeclaration, prefix_toUtf8_iff hOpen,
    prefix_toUtf8_iff hQuery]

theorem isDoctype_toUtf8
    (tag : Text) :
    isDoctype (toUtf8 tag) = isDoctype tag := by
  exact beginsWith_toUtf8 (by decide) tag

end Tag

end Markup

end WebTidy

------------------------------------------------------------
-- Normal Forms
------------------------------------------------------------

namespace WebTidy

namespace Markup

namespace Tag

open Octet

/- A tag may begin with text in front of a quote. -/
theorem pieces_bare
    {s : Text}
    (hSome : s ≠ [])
    (hFirst : s.head?.any isQuote = false) :
    pieces s =
      .bare (s.takeWhile (!isQuote ·)) ::
        pieces (s.dropWhile (!isQuote ·)) := by
  cases s with
  | nil => exact absurd rfl hSome
  | cons c rest =>
      have hc : isQuote c = false := hFirst
      rw [pieces]
      simp only [hc, Bool.false_eq_true, if_false,
        drop_length_takeWhile]
      simp [hc]

/- Or it begins with a value. -/
theorem pieces_value
    {c : Char}
    (hc : isQuote c = true)
    (rest : Text) :
    pieces (c :: rest) =
      match rest.dropWhile (· ≠ c) with
      | [] => [.value c rest false]
      | _ :: more =>
          .value c (rest.takeWhile (· ≠ c)) true ::
            pieces more := by
  have hWhole := congrArg List.length
    (List.takeWhile_append_dropWhile
      (p := fun d => decide (d ≠ c)) (l := rest))
  have hDrop := drop_length_takeWhile (· ≠ c) rest
  rw [pieces]
  simp only [hc, if_true]
  rw [List.length_append] at hWhole
  cases hMore : rest.dropWhile (· ≠ c) with
  | nil =>
      rw [hMore, List.length_nil, Nat.add_zero] at hWhole
      rw [if_neg (by omega)]
  | cons d more =>
      rw [hMore, List.length_cons] at hWhole
      rw [hMore] at hDrop
      rw [if_pos (by omega), ← List.drop_drop, hDrop]
      rfl

section Pieces

variable
  {f g : Text → Text}
  (hf : ∀ s, g (toUtf8 s) = toUtf8 (f s))

include hf

/- A value in normal form. -/
theorem normal_value_toUtf8
    {mark : Char}
    (hMark : isQuote mark = true)
    (s : Text)
    (closed : Bool) :
    Piece.normal g (.value mark (toUtf8 s) closed) =
      toUtf8 (Piece.normal f (.value mark s closed)) := by
  have hAscii := isWide_of_isQuote hMark
  have hEnd :
      toUtf8 (if closed then [mark] else []) =
        if closed then [mark] else [] := by
    cases closed with
    | false => exact toUtf8_nil
    | true => exact toUtf8_of_ascii (by simpa using hAscii)
  rw [Piece.normal, Piece.normal, List.cons_append,
    List.cons_append, toUtf8_cons_of_ascii _ hAscii,
    toUtf8_append, hEnd, fold_toUtf8 treatsWide_isBlank, hf]

/- All pieces in normal form. -/
theorem flatMap_pieces_toUtf8
    (s : Text) :
    (pieces (toUtf8 s)).flatMap (Piece.normal g) =
      toUtf8 ((pieces s).flatMap (Piece.normal f)) := by
  induction hLength : s.length using Nat.strong_induction_on
    generalizing s with
  | _ length ih =>
      cases s with
      | nil => rw [toUtf8_nil, pieces]; exact toUtf8_nil.symm
      | cons c rest =>
          cases hc : isQuote c with
          | true =>
              have hAscii := isWide_of_isQuote hc
              have hClass : TreatsWide (· ≠ c) true := by
                intro d hd
                exact decide_eq_true (ne_of_isWide hd hAscii)
              rw [toUtf8_cons_of_ascii rest hAscii,
                pieces_value hc, pieces_value hc,
                dropWhile_toUtf8 hClass, takeWhile_toUtf8 hClass]
              cases hMore : rest.dropWhile (· ≠ c) with
              | nil =>
                  rw [toUtf8_nil]
                  simp only [List.flatMap_singleton,
                    normal_value_toUtf8 hf hc]
              | cons d more =>
                  have hMark : d = c := by
                    have hFirst :=
                      Text.head?_dropWhile (· ≠ c) rest
                    rw [hMore] at hFirst
                    simpa using List.find?_some hFirst.symm
                  have hLess : more.length < length := by
                    have hPart :=
                      (List.dropWhile_sublist (· ≠ c)
                        (l := rest)).length_le
                    rw [hMore, List.length_cons] at hPart
                    rw [← hLength, List.length_cons]
                    omega
                  rw [hMark, toUtf8_cons_of_ascii more hAscii]
                  simp only [List.flatMap_cons, toUtf8_append,
                    normal_value_toUtf8 hf hc,
                    ih _ hLess _ rfl]
          | false =>
              have hOctets : toUtf8 (c :: rest) ≠ [] :=
                mt toUtf8_eq_nil_iff.mp (List.cons_ne_nil c rest)
              have hFirst :
                  (toUtf8 (c :: rest)).head?.any isQuote =
                    false := by
                rw [Octet.head?_toUtf8, Option.any_map,
                  treatsWide_isQuote.comp_eq keeps_first]
                exact hc
              have hLess :
                  ((c :: rest).dropWhile
                    (!isQuote ·)).length < length := by
                have hPart :=
                  (List.dropWhile_sublist (!isQuote ·)
                    (l := rest)).length_le
                rw [List.dropWhile_cons_of_pos (by simp [hc]),
                  ← hLength, List.length_cons]
                omega
              rw [pieces_bare hOctets hFirst,
                pieces_bare (List.cons_ne_nil c rest) hc,
                takeWhile_toUtf8 treatsWide_isQuote.not,
                dropWhile_toUtf8 treatsWide_isQuote.not,
                List.flatMap_cons, List.flatMap_cons,
                ih _ hLess _ rfl, toUtf8_append, Piece.normal,
                Piece.normal, fold_toUtf8 treatsWide_isBlank]

end Pieces

/- The inside of a tag and its closing bracket. -/
theorem inside_toUtf8
    (rest : Text) :
    inside ('<' :: toUtf8 rest) =
        toUtf8 (inside ('<' :: rest)) ∧
      bracket ('<' :: toUtf8 rest) =
        bracket ('<' :: rest) := by
  have hLast :
      (toUtf8 rest).getLast? = some '>' ↔
        rest.getLast? = some '>' := by
    rw [getLast?_toUtf8,
      map_eq_some_iff keeps_last (by decide)]
  unfold inside bracket
  simp only [List.drop_one, List.tail_cons, hLast, and_true]
  split
  · rename_i hClosed
    rcases List.getLast?_eq_some_iff.mp hClosed with
      ⟨inner, rfl⟩
    have hClose : toUtf8 ['>'] = ['>'] :=
      toUtf8_of_ascii (by decide)
    rw [toUtf8_append, hClose, List.dropLast_concat,
      List.dropLast_concat]
  · rfl

/- The normal form of a tag, for any way to decode values. -/
theorem normalizeWith_cons
    (f : Text → Text)
    (rest : Text) :
    normalizeWith f ('<' :: rest) =
      '<' ::
        (Text.trim (· = ' ')
            ((pieces (inside ('<' :: rest))).flatMap
              (Piece.normal f)) ++
          bracket ('<' :: rest)) := by
  cases rest with
  | nil =>
      simp [normalizeWith, inside, bracket, pieces, Text.trim,
        Text.trimEnd]
  | cons c rest => rfl

/- Other texts are left as they are. -/
theorem normalizeWith_of_head?
    (f : Text → Text)
    {tag : Text}
    (h : tag.head? ≠ some '<') :
    normalizeWith f tag = tag := by
  unfold normalizeWith
  split
  · exact absurd rfl h
  · rfl

/- The normal form of the octets is that of the tag. -/
theorem normalizeOctets_toUtf8
    (tag : Text) :
    normalizeOctets (toUtf8 tag) = toUtf8 (normalize tag) := by
  unfold normalizeOctets normalize
  by_cases hHead : tag.head? = some '<'
  · rcases List.head?_eq_some_iff.mp hHead with ⟨rest, rfl⟩
    rcases inside_toUtf8 rest with ⟨hInside, hBracket⟩
    have hSpace : TreatsWide (fun c => c = ' ') false :=
      treatsWide_eq (by decide)
    have hEnd :
        toUtf8 (bracket ('<' :: rest)) =
          bracket ('<' :: rest) := by
      unfold bracket
      split
      · exact toUtf8_of_ascii (by decide)
      · exact toUtf8_nil
    rw [toUtf8_cons_of_ascii rest (by decide),
      normalizeWith_cons, normalizeWith_cons, hInside,
      hBracket, toUtf8_cons_of_ascii _ (by decide),
      toUtf8_append, hEnd, ← trim_toUtf8 hSpace,
      flatMap_pieces_toUtf8 (mapUtf8_toUtf8 _)]
  · have hOctets : (toUtf8 tag).head? ≠ some '<' := by
      rwa [Octet.head?_toUtf8, ne_eq,
        map_eq_some_iff keeps_first (by decide)]
    rw [normalizeWith_of_head? _ hHead,
      normalizeWith_of_head? _ hOctets]

end Tag

end Markup

end WebTidy
