import WebTidy.Proofs.CharRef

/-
  Decoding introduces no markup.

  The characters that a mode keeps encoded are the ones that
  give a document its structure.  Apart from the ampersand,
  none of them stands in a reference and none is what a
  reference stands for, so a text has the same ones before
  and after it is decoded.

  Key theorems include:
    * `WebTidy.CharRef.Decodes.filter_eq`
    * `WebTidy.CharRef.Decodes.count_le`
    * `WebTidy.CharRef.decode_keeps_markup`
-/

------------------------------------------------------------
-- Kept Characters
------------------------------------------------------------

namespace WebTidy

namespace CharRef

/- A kept character is an ampersand or in no reference. -/
theorem Mode.isOutside_of_keeps
    {mode : Mode}
    {c : Char}
    (h : mode.keeps c = true) :
    isOutside c = true := by
  simp only [Mode.keeps, decide_eq_true_eq] at h
  rcases h with rfl | rfl | rfl | ⟨_, rfl | rfl⟩ <;> decide

/- A reference has no kept character but its ampersand. -/
theorem IsReference.not_mem_of_keeps
    {mode : Mode}
    {w : Text}
    {c d : Char}
    (h : IsReference mode w d)
    (hKeeps : mode.keeps c = true)
    (hc : c ≠ '&') :
    c ∉ w := by
  have hOutside := mode.isOutside_of_keeps hKeeps
  rcases h.exists_parts with ⟨payload, rfl, hInner, _⟩
  intro hMem
  rcases List.mem_append.mp hMem with hMem | hMem
  · rcases List.mem_cons.mp hMem with hFirst | hMem
    · exact hc hFirst
    · rw [(hInner c hMem).1] at hOutside
      cases hOutside
  · rw [List.mem_singleton.mp hMem] at hOutside
    cases hOutside

/- Decoding keeps the kept characters and their order. -/
theorem Decodes.filter_eq
    {mode : Mode}
    {s t : Text}
    {p : Char → Bool}
    (h : Decodes mode s t)
    (hKept : ∀ c, p c = true → mode.keeps c = true ∧ c ≠ '&') :
    t.filter p = s.filter p := by
  induction h with
  | nil => rfl
  | @reference w rest out d hWord hRest ih =>
      have hDenoted : p d = false := by
        rcases hWord.exists_parts with ⟨_, _, _, hd⟩
        cases hp : p d with
        | false => rfl
        | true =>
            rw [(hKept d hp).1] at hd
            cases hd
      have hNone : w.filter p = [] := by
        rw [List.filter_eq_nil_iff]
        intro c hc hp
        exact hWord.not_mem_of_keeps (hKept c hp).1
          (hKept c hp).2 hc
      rw [List.filter_append, hNone, List.nil_append, ← ih,
        List.filter_cons_of_neg (by simp [hDenoted])]
  | char hNone hRest ih =>
      rw [List.filter_cons, List.filter_cons, ih]

/- A kept character stands in a text or in neither form. -/
theorem mem_decode_iff
    {mode : Mode}
    {s : Text}
    {c : Char}
    (hKeeps : mode.keeps c = true)
    (hc : c ≠ '&') :
    c ∈ decode mode s ↔ c ∈ s := by
  have hFilter :=
    (decodes_decode mode s).filter_eq (p := (· = c)) (by
      intro d hd
      rw [of_decide_eq_true hd]
      exact ⟨hKeeps, hc⟩)
  have hMem (t : Text) :
      c ∈ t ↔ c ∈ t.filter (· = c) := by
    simp
  rw [hMem, hFilter, ← hMem]

/- Decoding gives no further ampersand. -/
theorem Decodes.count_le
    {mode : Mode}
    {s t : Text}
    (h : Decodes mode s t) :
    t.count '&' ≤ s.count '&' := by
  induction h with
  | nil => exact Nat.le_refl _
  | @reference w rest out d hWord hRest ih =>
      have hDenoted : d ≠ '&' := by
        rcases hWord.exists_parts with ⟨_, _, _, hd⟩
        rintro rfl
        cases mode <;> cases hd
      rw [List.count_cons_of_ne hDenoted, List.count_append]
      omega
  | char hNone hRest ih =>
      rw [List.count_cons, List.count_cons]
      omega

end CharRef

end WebTidy

------------------------------------------------------------
-- Markup
------------------------------------------------------------

namespace WebTidy

namespace CharRef

/-
  Decoding leaves the brackets of a text and their order as
  they are, also the quotes of an attribute value, and it
  gives no further ampersand.  A text can be cut behind a
  semicolon and before an ampersand, and its parts decoded
  on their own; a part that is a reference is replaced.
-/
theorem decode_keeps_markup
    (mode : Mode) :
    (∀ s : Text,
      ((decode mode s).filter fun c => c = '<' ∨ c = '>') =
          (s.filter fun c => c = '<' ∨ c = '>') ∧
        (decode mode s).count '&' ≤ s.count '&' ∧
        (mode = .attribute →
          ((decode mode s).filter fun c => c = '"' ∨ c = '\'') =
            (s.filter fun c => c = '"' ∨ c = '\''))) ∧
    (∀ a b : Text,
      a.getLast? = some ';' ∨ b.head? = some '&' ∨
          a = [] ∨ b = [] →
        decode mode (a ++ b) = decode mode a ++ decode mode b) ∧
    ∀ w d, IsReference mode w d → decode mode w = [d] := by
  refine ⟨?_, ?_, ?_⟩
  · intro s
    have hRead := decodes_decode mode s
    refine ⟨hRead.filter_eq ?_, hRead.count_le, ?_⟩
    · intro c hc
      simp only [decide_eq_true_eq] at hc
      rcases hc with rfl | rfl <;> simp [Mode.keeps]
    · rintro rfl
      apply hRead.filter_eq
      intro c hc
      simp only [decide_eq_true_eq] at hc
      rcases hc with rfl | rfl <;> simp [Mode.keeps]
  · intro a b hCut
    apply decode_append
    rcases hCut with hLast | hHead | rfl | rfl
    · refine Or.inl ?_
      rw [hLast]
      rfl
    · refine Or.inr ?_
      rw [hHead]
      rfl
    · exact Or.inl rfl
    · exact Or.inr rfl
  · intro w d hWord
    rw [← decodes_iff, ← List.append_nil w]
    exact .reference hWord .nil

/- A value with both quotes, encoded and not. -/
def quotedValue :
    Text :=
  "'&quot;&#x000041;&#39;&lt;<&&eacute;&copy".toList

/- Its quotes stay, and it is decoded in two parts. -/
theorem decode_keeps_quotedValue :
    ((decode .attribute quotedValue).filter
        fun c => c = '"' ∨ c = '\'') = ['\''] ∧
      "&copy;".toList.head? = some '&' ∧
      decode .attribute (quotedValue ++ "&copy;".toList) =
        decode .attribute quotedValue ++ ['\u00A9'] := by
  have hKeeps := decode_keeps_markup .attribute
  have hCopy :
      IsReference .attribute "&copy;".toList '\u00A9' := by
    refine ⟨"copy".toList, ⟨"copy".toList, ?_, ?_, Or.inl rfl⟩,
      ?_, rfl⟩
    · decide
    · decide
    · decide +kernel
  refine ⟨?_, rfl, ?_⟩
  · rw [(hKeeps.1 quotedValue).2.2 rfl]
    decide
  · rw [hKeeps.2.1 quotedValue "&copy;".toList
      (Or.inr (Or.inl rfl)), hKeeps.2.2 _ _ hCopy]

end CharRef

end WebTidy
