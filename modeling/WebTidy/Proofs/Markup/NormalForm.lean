import WebTidy.Proofs.CharRef.Stability
import WebTidy.Proofs.Markup.Quoting

/-
  When the normal form of a tag is stable.

  Folding and trimming the text outside quotes twice is the
  same as doing it once.  A value is folded before it is
  decoded, so what its references stand for is only seen
  when the tag is normalized again: blanks can stand
  together, and characters can make up a reference.  The
  normal form is stable exactly if this happens in none of
  the values, and it never does where all references stand
  for characters beyond ASCII.

  Key definitions include:
    * `WebTidy.CharRef.IsSettled`
    * `WebTidy.CharRef.IsForeign`

  Key theorems include:
    * `WebTidy.CharRef.isSettled_decode`
    * `WebTidy.Markup.Tag.trimEnds_fold`
    * `WebTidy.Markup.Tag.Quoting.normal_normal_iff`
    * `WebTidy.Markup.Tag.normalize_normalize_iff`
-/

------------------------------------------------------------
-- Settled Values
------------------------------------------------------------

namespace WebTidy

namespace Text

/- Folding makes no text longer. -/
theorem length_foldFrom_le
    (inRun : Bool)
    (s : Text) :
    (s.foldFrom isBlank inRun).length ≤ s.length := by
  induction s generalizing inRun with
  | nil => exact Nat.le_refl _
  | cons c rest ih =>
      have hTrue := ih true
      have hFalse := ih false
      rw [foldFrom]
      split
      · split
        · rw [List.length_cons]
          omega
        · exact Nat.succ_le_succ hTrue
      · exact Nat.succ_le_succ hFalse

end Text

namespace CharRef

/- A text that is folded and has no reference. -/
structure IsSettled
    (mode : Mode)
    (s : Text) :
    Prop where
  folded : s.IsFolded
  bare : ∀ w d, IsReference mode w d → ¬ w <:+: s

/- A text that decoding makes no shorter is left as it is. -/
theorem Decodes.eq_of_length
    {mode : Mode}
    {s t : Text}
    (h : Decodes mode s t)
    (hLength : t.length = s.length) :
    t = s := by
  induction h with
  | nil => rfl
  | reference hWord hRest ih =>
      have hShort := hRest.length_le
      rcases hWord.exists_parts with ⟨payload, rfl, _⟩
      simp only [List.length_append, List.length_cons] at hLength
      omega
  | char hNone hRest ih =>
      rw [ih (Nat.succ.inj hLength)]

/- Folding and decoding leave exactly the settled texts. -/
theorem decode_fold_eq_self_iff
    {mode : Mode}
    {s : Text} :
    decode mode (s.fold isBlank) = s ↔ IsSettled mode s := by
  constructor
  · intro h
    have hRead := decodes_decode mode (s.fold isBlank)
    rw [h] at hRead
    have hFold : s.length = (s.fold isBlank).length :=
      Nat.le_antisymm hRead.length_le
        (Text.length_foldFrom_le false s)
    have hSame := hRead.eq_of_length hFold
    refine ⟨?_, ?_⟩
    · rw [hSame]
      exact (Text.isFolded_foldFrom false s).1
    · rw [← decode_eq_self_iff]
      rw [← hSame] at h
      exact h
  · rintro ⟨hFolded, hBare⟩
    rw [hFolded.fold_eq, decode_eq_self_iff.mpr hBare]

/- All references stand for characters beyond ASCII. -/
def IsForeign
    (mode : Mode)
    (s : Text) :
    Prop :=
  ∀ w d, IsReference mode w d → w <:+: s → 0x80 ≤ d.toNat

/- They stand for characters of a class, then. -/
theorem isForeign_iff
    {mode : Mode}
    {s : Text} :
    IsForeign mode s ↔
      RefersTo mode (0x80 ≤ ·.toNat) s := by
  simp [IsForeign, RefersTo]

instance
    (mode : Mode)
    (s : Text) :
    Decidable (IsForeign mode s) :=
  decidable_of_iff' _ isForeign_iff

/- So they do in every part of the text. -/
theorem IsForeign.part
    {mode : Mode}
    {s u : Text}
    (h : IsForeign mode s)
    (hPart : u <:+: s) :
    IsForeign mode u := by
  intro w d hWord hInfix
  exact h w d hWord (hInfix.trans hPart)

/- A character beyond ASCII is in no reference. -/
theorem isOutside_of_le
    {c : Char}
    (h : 0x80 ≤ c.toNat) :
    isOutside c = true ∧ isBlank c = false := by
  have hNe {d : Char} (hd : d.toNat < 0x80) : c ≠ d := by
    rintro rfl
    omega
  have hVal : c.val.toNat = c.toNat := rfl
  have hAlphanum : c.isAlphanum = false := by
    simp only [Char.isAlphanum, Char.isAlpha, Char.isUpper,
      Char.isLower, Char.isDigit, ge_iff_le,
      UInt32.le_iff_toNat_le, hVal, Bool.or_eq_false_iff,
      decide_eq_false_iff_not, Bool.and_eq_false_iff]
    refine ⟨⟨?_, ?_⟩, ?_⟩ <;> simp <;> omega
  constructor
  · simp [isOutside, isPayloadChar, hAlphanum, hNe]
  · simp [isBlank, hNe]

/- Characters beyond ASCII are no blanks. -/
theorem Decodes.isFolded
    {mode : Mode}
    {s t : Text}
    (h : Decodes mode s t)
    (hForeign : IsForeign mode s)
    (hFolded : s.IsFolded) :
    t.IsFolded ∧
      (t.head?.any isBlank = true →
        s.head?.any isBlank = true) := by
  induction h with
  | nil => exact ⟨hFolded, id⟩
  | @reference w rest out d hWord hRest ih =>
      have hSuffix := List.suffix_append w rest
      have hBlank : isBlank d = false :=
        (isOutside_of_le (hForeign w d hWord
          (List.prefix_append w rest).isInfix)).2
      rcases ih (hForeign.part hSuffix.isInfix)
        (hFolded.part hSuffix.isInfix) with ⟨hOut, _⟩
      refine ⟨hOut.cons ?_ ?_, ?_⟩
      · intro hd
        rw [hBlank] at hd
        cases hd
      · intro hd
        rw [hBlank] at hd
        cases hd
      · simp [hBlank]
  | @char c rest out hNone hRest ih =>
      have hSuffix := List.suffix_cons c rest
      rcases ih (hForeign.part hSuffix.isInfix)
        (hFolded.part hSuffix.isInfix) with ⟨hOut, hHead⟩
      refine ⟨hOut.cons ?_ ?_, id⟩
      · exact hFolded.space c (by simp)
      · intro hc
        cases hNext : out.head?.any isBlank with
        | false => rfl
        | true =>
            cases rest with
            | nil => exact absurd (hHead hNext) (by simp)
            | cons e rest =>
                have he :=
                  (List.isChain_cons_cons.mp hFolded.apart).1 hc
                have hSame := hHead hNext
                rw [List.head?_cons, Option.any_some, he] at hSame
                cases hSame

/- Characters beyond ASCII leave a folded text settled. -/
theorem isSettled_decode
    {mode : Mode}
    {s : Text}
    (hForeign : IsForeign mode s) :
    IsSettled mode (decode mode (s.fold isBlank)) := by
  have hRead := decodes_decode mode (s.fold isBlank)
  have hFolded := (Text.isFolded_foldFrom false s).1
  have hFold : IsForeign mode (s.fold isBlank) := by
    intro w d hWord hInfix
    apply hForeign w d hWord
    refine Text.infix_of_infix_foldFrom ?_ ?_ hInfix
    · rcases hWord.exists_parts with ⟨payload, rfl, _⟩
      simp
    · intro c hc
      exact hWord.isBlank_eq_false hc
  have hStable :
      decode mode (decode mode (s.fold isBlank)) =
        decode mode (s.fold isBlank) := by
    apply RefersTo.decode_decode
    intro w d hWord hInfix
    exact (isOutside_of_le (hFold w d hWord hInfix)).1
  exact ⟨(hRead.isFolded hFold hFolded).1,
    decode_eq_self_iff.mp hStable⟩

end CharRef

end WebTidy

------------------------------------------------------------
-- Stable Tags
------------------------------------------------------------

namespace WebTidy

namespace Markup

namespace Tag

/- Several texts are trimmed at two of them. -/
theorem trimEnds_cons_concat
    (first last : Text)
    (mid : List Text) :
    trimEnds (first :: (mid ++ [last])) =
      first.dropWhile (· = ' ') ::
        (mid ++ [last.trimEnd (· = ' ')]) :=
  List.modifyLast_concat _ last
    (first.dropWhile (· = ' ') :: mid)

/- Folded and trimmed texts stay as they are. -/
theorem trimEnds_fold
    (texts : List Text) :
    trimEnds
        ((trimEnds (texts.map (Text.fold isBlank))).map
          (Text.fold isBlank)) =
      trimEnds (texts.map (Text.fold isBlank)) := by
  have hFold {s t : Text} (ht : t <:+: s.fold isBlank) :
      t.fold isBlank = t :=
    ((Text.isFolded_foldFrom false s).1.part ht).fold_eq
  rcases texts with _ | ⟨first, rest⟩
  · rfl
  · rcases List.eq_nil_or_concat' rest with
      rfl | ⟨mid, last, rfl⟩
    · -- one text is trimmed at both ends
      have hTrim :
          (first.fold isBlank).trim (· = ' ') <:+:
            first.fold isBlank :=
        (Text.trimEnd_prefix _ _).isInfix.trans
          (List.dropWhile_suffix _).isInfix
      change [((Text.fold isBlank
          ((first.fold isBlank).trim (· = ' '))).trim
            (· = ' '))] = [(first.fold isBlank).trim (· = ' ')]
      rw [hFold hTrim, Text.trim_trim]
    · have hTail :
          Text.trimEnd (· = ' ')
              ((last.fold isBlank).trimEnd (· = ' ')) =
            (last.fold isBlank).trimEnd (· = ' ') := by
        have hTwice :=
          @Text.trimEnd_trimEnd_append (· = ' ')
            (last.fold isBlank) [] rfl
        rwa [List.append_nil] at hTwice
      have hMid :
          (mid.map (Text.fold isBlank)).map (Text.fold isBlank) =
            mid.map (Text.fold isBlank) := by
        rw [List.map_map]
        apply List.map_congr_left
        intro t _
        exact hFold (List.infix_refl _)
      simp only [List.map_cons, List.map_append, List.map_nil,
        trimEnds_cons_concat]
      rw [hFold (List.dropWhile_suffix _).isInfix, hMid,
        hFold (Text.trimEnd_prefix _ _).isInfix,
        List.dropWhile_idempotent, hTail]

/- The normal form is stable if its values are settled. -/
theorem Quoting.normal_normal_iff
    (x : Quoting) :
    x.normal.normal = x.normal ↔
      ∀ value ∈ x.values,
        CharRef.IsSettled .attribute
          (CharRef.decode .attribute (value.2.fold isBlank)) := by
  constructor
  · intro h value hValue
    rw [← CharRef.decode_fold_eq_self_iff]
    have hValues := congrArg Quoting.values h
    rw [x.normal.values_normal, x.values_normal, List.map_map]
      at hValues
    exact (Prod.mk.inj
      (List.map_inj_left.mp hValues value hValue)).2
  · intro h
    apply Quoting.eq_of_values
    · rw [x.normal.values_normal, x.values_normal, List.map_map]
      apply List.map_congr_left
      intro value hValue
      rw [Function.comp_apply,
        CharRef.decode_fold_eq_self_iff.mpr (h value hValue)]
    · rw [x.normal.bares_normal, x.bares_normal, trimEnds_fold]

/-
  A second normal form of a tag that ends is the first one
  exactly if each value is settled once it is folded and
  decoded: its blanks are single spaces, and its characters
  make up no reference.  So it is if the references of the
  values stand for characters beyond ASCII.
-/
theorem normalize_normalize_iff
    {tag : Text}
    (hHead : tag.head? = some '<')
    (hEnd : endIndex? tag 0 = some (tag.length - 1)) :
    ∃ x : Quoting,
      (∀ z : Quoting, z.tag = tag ↔ z = x) ∧
      (normalize (normalize tag) = normalize tag ↔
        ∀ value ∈ x.values,
          CharRef.IsSettled .attribute
            (CharRef.decode .attribute
              (value.2.fold isBlank))) ∧
      ((∀ value ∈ x.values,
          CharRef.IsForeign .attribute value.2) →
        normalize (normalize tag) = normalize tag) := by
  rcases exists_quoting_iff.mpr ⟨hHead, hEnd⟩ with ⟨x, rfl⟩
  have hStable :
      normalize (normalize x.tag) = normalize x.tag ↔
        ∀ value ∈ x.values,
          CharRef.IsSettled .attribute
            (CharRef.decode .attribute
              (value.2.fold isBlank)) := by
    rw [← x.normal_normal_iff, x.normalize_tag,
      x.normal.normalize_tag, Quoting.tag_inj_iff]
  refine ⟨x, fun z => Quoting.tag_inj_iff, hStable, ?_⟩
  intro hForeign
  rw [hStable]
  intro value hValue
  exact CharRef.isSettled_decode (hForeign value hValue)

/- A quoting with references to characters beyond ASCII. -/
def accentedLink :
    Quoting :=
  .next ⟨"a  title= ".toList, by simp [isStop, isQuote]⟩
    ⟨'"', "caf&eacute;  &amp; &#x2026;".toList, rfl, by simp⟩
    (.last ⟨" ".toList, by simp [isStop, isQuote]⟩)

/- The normal form of its tag is stable. -/
theorem normalize_normalize_accentedLink :
    (accentedLink.tag.head? = some '<' ∧
      endIndex? accentedLink.tag 0 =
        some (accentedLink.tag.length - 1)) ∧
    (∀ value ∈ accentedLink.values,
      CharRef.IsForeign .attribute value.2) ∧
    normalize (normalize accentedLink.tag) =
      normalize accentedLink.tag := by
  have hHead : accentedLink.tag.head? = some '<' := by
    decide
  have hEnd :
      endIndex? accentedLink.tag 0 =
        some (accentedLink.tag.length - 1) := by
    decide +kernel
  have hForeign :
      ∀ value ∈ accentedLink.values,
        CharRef.IsForeign .attribute value.2 := by
    decide +kernel
  rcases normalize_normalize_iff hHead hEnd with
    ⟨x, hx, _, hStable⟩
  rw [← (hx accentedLink).mp rfl] at hStable
  exact ⟨⟨hHead, hEnd⟩, hForeign, hStable hForeign⟩

/-
  A value is folded before it is decoded.  References to
  spaces leave a run of blanks behind, and a reference to a
  letter can complete the name of another reference, so a
  second normal form differs from the first.
-/
theorem not_stable_normalize :
    (endIndex? "<a b='&#32;&#32;'>".toList 0 = some 17 ∧
      normalize "<a b='&#32;&#32;'>".toList =
        "<a b='  '>".toList ∧
      normalize "<a b='  '>".toList = "<a b=' '>".toList) ∧
    (endIndex? "<a b='&co&#112;y;'>".toList 0 = some 18 ∧
      normalize "<a b='&co&#112;y;'>".toList =
        "<a b='&copy;'>".toList ∧
      normalize "<a b='&copy;'>".toList =
        "<a b='\u00A9'>".toList) := by
  decide +kernel

end Tag

end Markup

end WebTidy
