import Mathlib.Data.List.Infix
import WebTidy.Proofs.CharRef

/-
  When a decoded text is stable.

  A decoded character stands among characters that are left
  as they are, and together they can spell a reference.  The
  part of the text that they come from begins with an
  ampersand and ends with a semicolon, so it is decoded on
  its own.  A second decoding changes a text exactly if some
  part of it is decoded to a reference.

  Key definitions include:
    * `WebTidy.CharRef.RefersTo`

  Key theorems include:
    * `WebTidy.CharRef.Decodes.exists_append`
    * `WebTidy.CharRef.infix_decode`
    * `WebTidy.CharRef.not_isReference_decode`
    * `WebTidy.CharRef.decode_decode_iff`
-/

------------------------------------------------------------
-- Parts Of A Decoded Text
------------------------------------------------------------

namespace WebTidy

namespace CharRef

/- A cut of the decoded text is a cut of the text. -/
theorem Decodes.exists_append
    {mode : Mode}
    {s x y : Text}
    (h : Decodes mode s (x ++ y)) :
    ∃ a b,
      s = a ++ b ∧ Decodes mode a x ∧ Decodes mode b y := by
  generalize ht : x ++ y = t at h
  induction h generalizing x with
  | nil =>
      rcases List.append_eq_nil_iff.mp ht with ⟨rfl, rfl⟩
      exact ⟨[], [], rfl, .nil, .nil⟩
  | @reference w rest out d hWord hRest ih =>
      cases x with
      | nil =>
          rw [List.nil_append] at ht
          rw [ht]
          exact ⟨[], w ++ rest, rfl, .nil,
            .reference hWord hRest⟩
      | cons e x =>
          rcases List.cons.inj ht with ⟨rfl, hOut⟩
          rcases ih hOut with ⟨a, b, rfl, ha, hb⟩
          exact ⟨w ++ a, b, (List.append_assoc w a b).symm,
            .reference hWord ha, hb⟩
  | @char c rest out hNone hRest ih =>
      cases x with
      | nil =>
          rw [List.nil_append] at ht
          rw [ht]
          exact ⟨[], c :: rest, rfl, .nil, .char hNone hRest⟩
      | cons e x =>
          rcases List.cons.inj ht with ⟨rfl, hOut⟩
          rcases ih hOut with ⟨a, b, rfl, ha, hb⟩
          refine ⟨e :: a, b, rfl, .char ?_ ha, hb⟩
          intro w d hWord hPrefix
          exact hNone w d hWord
            (hPrefix.trans (List.prefix_append (e :: a) b))

/- Only the empty text is decoded to nothing. -/
theorem Decodes.eq_nil
    {mode : Mode}
    {s : Text}
    (h : Decodes mode s []) :
    s = [] := by
  cases h
  rfl

/- An ampersand of the decoded text stands in the text. -/
theorem Decodes.head?_eq
    {mode : Mode}
    {s t : Text}
    (h : Decodes mode s ('&' :: t)) :
    s.head? = some '&' := by
  cases h with
  | reference hWord hRest =>
      rcases hWord.exists_parts with ⟨_, _, _, hKeeps⟩
      cases mode <;> cases hKeeps
  | char hNone hRest => rfl

/- A semicolon does, or else it ends a reference. -/
theorem Decodes.getLast?_eq
    {mode : Mode}
    {s t : Text}
    (h : Decodes mode s (t ++ [';'])) :
    s.getLast? = some ';' := by
  rcases h.exists_append with ⟨a, b, rfl, _, hLast⟩
  cases hLast with
  | reference hWord hRest =>
      rcases hWord.exists_parts with ⟨payload, rfl, _⟩
      rw [hRest.eq_nil, List.append_nil, ← List.append_assoc,
        List.getLast?_concat]
  | char hNone hRest =>
      rw [hRest.eq_nil, List.getLast?_concat]

/-
  A part that is decoded to a reference is apart from what
  stands around it.
-/
theorem infix_decode
    {mode : Mode}
    {s u : Text}
    {d : Char}
    (hPart : u <:+: s)
    (hWord : IsReference mode (decode mode u) d) :
    decode mode u <:+: decode mode s := by
  have hRead := decodes_decode mode u
  rcases hWord.exists_parts with ⟨payload, hParts, _, _⟩
  rw [hParts] at hRead
  rcases hPart with ⟨a, b, rfl⟩
  have hFront : Apart a u := by
    refine Or.inr ?_
    rw [hRead.head?_eq]
    rfl
  have hBack : Apart (a ++ u) b := by
    refine Or.inl ?_
    rw [List.getLast?_append, hRead.getLast?_eq]
    rfl
  rw [decode_append mode hBack, decode_append mode hFront]
  exact List.infix_append _ _ _

end CharRef

end WebTidy

------------------------------------------------------------
-- References To A Class Of Characters
------------------------------------------------------------

namespace WebTidy

namespace CharRef

/- All references of a text stand for characters of a class. -/
def RefersTo
    (mode : Mode)
    (p : Char → Bool)
    (s : Text) :
    Prop :=
  ∀ w d, IsReference mode w d → w <:+: s → p d = true

/- It can be checked at every place of the text. -/
theorem refersTo_iff
    {mode : Mode}
    {p : Char → Bool}
    {s : Text} :
    RefersTo mode p s ↔
      ∀ t ∈ s.tails, t.head? = some '&' →
        ((payload? t.tail).bind (resolve? mode)).all p =
          true := by
  constructor
  · intro h t ht hHead
    rcases List.head?_eq_some_iff.mp hHead with ⟨rest, rfl⟩
    rw [Option.all_eq_true]
    intro d hDenoted
    rcases prefix_cons_iff.mpr ⟨rfl, hDenoted⟩ with
      ⟨w, hWord, hPrefix⟩
    exact h w d hWord
      (hPrefix.isInfix.trans ((List.mem_tails _ _).mp ht).isInfix)
  · intro h w d hWord hInfix
    rcases List.infix_iff_prefix_suffix.mp hInfix with
      ⟨t, hPrefix, hSuffix⟩
    cases t with
    | nil =>
        rcases hWord.exists_parts with ⟨payload, rfl, _⟩
        cases List.prefix_nil.mp hPrefix
    | cons c rest =>
        rcases prefix_cons_iff.mp ⟨w, hWord, hPrefix⟩ with
          ⟨rfl, hDenoted⟩
        have hAll :=
          h _ ((List.mem_tails _ _).mpr hSuffix) rfl
        rw [List.tail_cons, hDenoted] at hAll
        exact hAll

instance
    (mode : Mode)
    (p : Char → Bool)
    (s : Text) :
    Decidable (RefersTo mode p s) :=
  decidable_of_iff' _ refersTo_iff

/- So they do in every part of the text. -/
theorem RefersTo.part
    {mode : Mode}
    {p : Char → Bool}
    {s u : Text}
    (h : RefersTo mode p s)
    (hPart : u <:+: s) :
    RefersTo mode p u := by
  intro w d hWord hInfix
  exact h w d hWord (hInfix.trans hPart)

/- Decoding that gives no character of the class. -/
theorem Decodes.eq_of_refersTo
    {mode : Mode}
    {p : Char → Bool}
    {s t : Text}
    (h : Decodes mode s t)
    (hRefers : RefersTo mode p s)
    (hNone : ∀ c ∈ t, c = '&' ∨ p c = false) :
    t = s := by
  induction h with
  | nil => rfl
  | @reference w rest out d hWord hRest ih =>
      rcases hWord.exists_parts with ⟨_, _, _, hKeeps⟩
      have hd :=
        hRefers w d hWord (List.prefix_append w rest).isInfix
      rcases hNone d (by simp) with rfl | hOther
      · cases mode <;> cases hKeeps
      · rw [hd] at hOther
        cases hOther
  | @char c rest out hStay hRest ih =>
      rw [ih (hRefers.part (List.suffix_cons c rest).isInfix)
        (fun e he => hNone e (by simp [he]))]

/- Characters in no reference spell no reference. -/
theorem not_isReference_decode
    {mode : Mode}
    {u : Text}
    {d : Char}
    (hRefers : RefersTo mode isOutside u) :
    ¬ IsReference mode (decode mode u) d := by
  intro hWord
  rcases hWord.exists_parts with ⟨payload, hParts, hInner, _⟩
  have hNone :
      ∀ c ∈ decode mode u, c = '&' ∨ isOutside c = false := by
    rw [hParts]
    intro c hc
    rcases List.mem_append.mp hc with hc | hc
    · rcases List.mem_cons.mp hc with rfl | hc
      · exact Or.inl rfl
      · exact Or.inr (hInner c hc).1
    · rw [List.mem_singleton.mp hc]
      exact Or.inr rfl
  have hSame : decode mode u = u :=
    (decodes_decode mode u).eq_of_refersTo hRefers hNone
  have hBare := decode_eq_self_iff.mp hSame
  rw [hSame] at hWord
  exact hBare u d hWord (List.infix_refl u)

end CharRef

end WebTidy

------------------------------------------------------------
-- Stable Texts
------------------------------------------------------------

namespace WebTidy

namespace CharRef

/- A decoded text has the references that its parts spell. -/
theorem decode_decode_eq_iff
    {mode : Mode}
    {s : Text} :
    decode mode (decode mode s) = decode mode s ↔
      ∀ u d, u <:+: s → ¬ IsReference mode (decode mode u) d := by
  rw [decode_eq_self_iff]
  constructor
  · intro h u d hPart hWord
    exact h _ d hWord (infix_decode hPart hWord)
  · rintro h w d hWord ⟨x, y, hCut⟩
    have hRead := decodes_decode mode s
    rw [← hCut] at hRead
    rcases hRead.exists_append with ⟨au, b, rfl, hFront, _⟩
    rcases hFront.exists_append with ⟨a, u, rfl, _, hu⟩
    refine h u d (List.infix_append a u b) ?_
    rw [decodes_iff.mp hu]
    exact hWord

/- Characters in no reference leave a decoded text stable. -/
theorem RefersTo.decode_decode
    {mode : Mode}
    {s : Text}
    (h : RefersTo mode isOutside s) :
    decode mode (decode mode s) = decode mode s := by
  rw [decode_decode_eq_iff]
  intro u d hPart
  exact not_isReference_decode (h.part hPart)

/-
  A second decoding leaves a decoded text as it is exactly
  if no part of the text is decoded to a reference.  None is
  if all references of the text stand for characters that no
  reference goes on with.
-/
theorem decode_decode_iff
    (mode : Mode)
    (s : Text) :
    (decode mode (decode mode s) = decode mode s ↔
      ∀ u d, u <:+: s →
        ¬ IsReference mode (decode mode u) d) ∧
    (RefersTo mode isOutside s →
      decode mode (decode mode s) = decode mode s) :=
  ⟨decode_decode_eq_iff, RefersTo.decode_decode⟩

/- A text with references beside names and semicolons. -/
def accentedText :
    Text :=
  "&caf&eacute;&#32;&#x21;;&amp;co&#45;py;&#9999999;".toList

/- It is decoded once and for all. -/
theorem decode_decode_accentedText :
    RefersTo .text isOutside accentedText ∧
      decode .text (decode .text accentedText) =
        decode .text accentedText := by
  have hRefers : RefersTo .text isOutside accentedText := by
    decide +kernel
  exact ⟨hRefers,
    (decode_decode_iff .text accentedText).2 hRefers⟩

/-
  A reference to a letter completes the name of another
  reference, in a text as in a value, and a second decoding
  replaces it.  The name of a bracket is completed as well.
-/
theorem not_stable_decode :
    (decode .text "&co&#112;y;".toList = "&copy;".toList ∧
      decode .text (decode .text "&co&#112;y;".toList) ≠
        decode .text "&co&#112;y;".toList) ∧
    (decode .attribute "&co&#112;y;".toList = "&copy;".toList ∧
      decode .attribute
          (decode .attribute "&co&#112;y;".toList) ≠
        decode .attribute "&co&#112;y;".toList) ∧
    decode .text "&l&#116;;".toList = "&lt;".toList := by
  decide +kernel

end CharRef

end WebTidy
