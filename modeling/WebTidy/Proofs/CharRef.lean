import WebTidy.CharRef.Decode
import WebTidy.Proofs.Text

/-
  Character references and decoding.

  A reference is a word: an ampersand, a payload and a
  semicolon.  Decoding reads a text from left to right and
  replaces the references that it meets.  No reference holds
  an ampersand or a semicolon inside, and none holds a
  blank, so a text can be decoded part by part.

  Key definitions include:
    * `WebTidy.CharRef.IsPayload`
    * `WebTidy.CharRef.IsReference`
    * `WebTidy.CharRef.Decodes`
    * `WebTidy.CharRef.Apart`

  Key theorems include:
    * `WebTidy.CharRef.payload?_eq_some_iff`
    * `WebTidy.CharRef.decodes_iff`
    * `WebTidy.CharRef.decode_append`
    * `WebTidy.CharRef.decode_eq_self_iff`
    * `WebTidy.CharRef.decode_foldFrom`
-/

------------------------------------------------------------
-- Payloads
------------------------------------------------------------

namespace WebTidy

namespace CharRef

/- A name, or a hash sign with a number. -/
def IsPayload
    (payload : Text) :
    Prop :=
  ∃ word : Text,
    word ≠ [] ∧ word.all isPayloadChar = true ∧
      (payload = word ∨ payload = '#' :: word)

/- Characters that no reference goes on with. -/
def isOutside
    (c : Char) :
    Bool :=
  ¬ (isPayloadChar c ∨ c = '#' ∨ c = ';')

/- A payload has payload characters and a hash sign only. -/
theorem IsPayload.of_mem
    {payload : Text}
    {c : Char}
    (h : IsPayload payload)
    (hc : c ∈ payload) :
    isPayloadChar c = true ∨ c = '#' := by
  rcases h with ⟨word, _, hWord, rfl | rfl⟩
  · exact Or.inl (List.all_eq_true.mp hWord c hc)
  · rcases List.mem_cons.mp hc with rfl | hc
    · exact Or.inr rfl
    · exact Or.inl (List.all_eq_true.mp hWord c hc)

/- A run of payload characters ends at a semicolon. -/
theorem takeWhile_append_semicolon
    {word : Text}
    (rest : Text)
    (hWord : word.all isPayloadChar = true) :
    (word ++ ';' :: rest).takeWhile isPayloadChar = word := by
  rw [List.takeWhile_append_of_pos
    (List.all_eq_true.mp hWord),
    List.takeWhile_cons_of_neg (by decide), List.append_nil]

/- A payload is its hash sign, if any, and a run. -/
theorem payload?_append
    {lead t : Text}
    (hLead :
      (if (lead ++ t).head? = some '#' then 1 else 0) =
        lead.length) :
    payload? (lead ++ t) =
      if t.takeWhile isPayloadChar ≠ [] ∧
          t[(t.takeWhile isPayloadChar).length]? = some ';' then
        some (lead ++ t.takeWhile isPayloadChar)
      else none := by
  have hTake :
      t.take (t.takeWhile isPayloadChar).length =
        t.takeWhile isPayloadChar :=
    (List.prefix_iff_eq_take.mp
      (List.takeWhile_prefix isPayloadChar)).symm
  unfold payload?
  simp only [hLead, List.drop_left, List.length_pos_iff,
    List.take_length_add_append, hTake,
    List.getElem?_append_right (Nat.le_add_right _ _),
    Nat.add_sub_cancel_left]

/- The payload of a text is what stands before a semicolon. -/
theorem payload?_eq_some_iff
    {s payload : Text} :
    payload? s = some payload ↔
      IsPayload payload ∧ ∃ rest, s = payload ++ ';' :: rest := by
  constructor
  · intro h
    have hLead : ∃ lead t : Text,
        s = lead ++ t ∧ (lead = [] ∨ lead = ['#']) ∧
        (if (lead ++ t).head? = some '#' then 1 else 0) =
          lead.length := by
      by_cases hHash : s.head? = some '#'
      · rcases List.head?_eq_some_iff.mp hHash with ⟨t, rfl⟩
        exact ⟨['#'], t, rfl, Or.inr rfl, rfl⟩
      · exact ⟨[], s, rfl, Or.inl rfl, if_neg hHash⟩
    rcases hLead with ⟨lead, t, rfl, hEither, hLength⟩
    rw [payload?_append hLength] at h
    split at h
    · rename_i hFound
      rcases Text.exists_of_getElem?_takeWhile hFound.2 with
        ⟨rest, hRest⟩
      cases h
      refine ⟨⟨_, hFound.1, by simp, ?_⟩, rest, ?_⟩
      · rcases hEither with rfl | rfl
        · exact Or.inl rfl
        · exact Or.inr rfl
      · rw [List.append_assoc, ← hRest]
    · cases h
  · rintro ⟨⟨word, hSome, hWord, hEither⟩, rest, rfl⟩
    have hRun := takeWhile_append_semicolon rest hWord
    have hFound :
        (word ++ ';' :: rest)[word.length]? = some ';' := by
      simp
    rcases hEither with rfl | rfl
    · have hHead :
          ¬ (payload ++ ';' :: rest).head? = some '#' := by
        rcases List.exists_cons_of_ne_nil hSome with
          ⟨c, word, rfl⟩
        rw [List.cons_append, List.head?_cons, Option.some_inj]
        rintro rfl
        simp [isPayloadChar] at hWord
      rw [← List.nil_append (payload ++ ';' :: rest),
        payload?_append (if_neg hHead), hRun,
        if_pos ⟨hSome, hFound⟩, List.nil_append]
    · have hHash :=
        @payload?_append ['#'] (word ++ ';' :: rest) rfl
      rw [hRun, if_pos ⟨hSome, hFound⟩] at hHash
      exact hHash

end CharRef

end WebTidy

------------------------------------------------------------
-- References
------------------------------------------------------------

namespace WebTidy

namespace CharRef

/- A word that is replaced by a character. -/
def IsReference
    (mode : Mode)
    (w : Text)
    (d : Char) :
    Prop :=
  ∃ payload,
    IsPayload payload ∧ resolve? mode payload = some d ∧
      w = '&' :: payload ++ [';']

/-
  A text read from left to right: a reference where one
  begins, and a single character elsewhere.
-/
inductive Decodes
    (mode : Mode) :
    Text → Text → Prop
| nil :
    Decodes mode [] []
| reference
    {w rest out : Text}
    {d : Char}
    (hWord : IsReference mode w d)
    (hRest : Decodes mode rest out) :
    Decodes mode (w ++ rest) (d :: out)
| char
    {c : Char}
    {rest out : Text}
    (hNone : ∀ w d, IsReference mode w d → ¬ w <+: c :: rest)
    (hRest : Decodes mode rest out) :
    Decodes mode (c :: rest) (c :: out)

/- A reference has its ampersand at the start only. -/
theorem IsReference.exists_parts
    {mode : Mode}
    {w : Text}
    {d : Char}
    (h : IsReference mode w d) :
    ∃ payload,
      w = '&' :: payload ++ [';'] ∧
      (∀ c ∈ payload, isOutside c = false ∧ c ≠ ';') ∧
      mode.keeps d = false := by
  rcases h with ⟨payload, hPayload, hDenoted, rfl⟩
  refine ⟨payload, rfl, ?_, ?_⟩
  · intro c hc
    rcases hPayload.of_mem hc with hChar | rfl
    · refine ⟨by simp [isOutside, hChar], ?_⟩
      rintro rfl
      cases hChar
    · decide
  · unfold resolve? at hDenoted
    rcases Option.filter_eq_some_iff.mp hDenoted with ⟨_, hd⟩
    simpa using hd

/- Where a reference begins, by the payload behind. -/
theorem prefix_cons_iff
    {mode : Mode}
    {c d : Char}
    {rest : Text} :
    (∃ w, IsReference mode w d ∧ w <+: c :: rest) ↔
      c = '&' ∧ (payload? rest).bind (resolve? mode) = some d := by
  rw [Option.bind_eq_some_iff]
  constructor
  · rintro ⟨_, ⟨payload, hPayload, hDenoted, rfl⟩, more, hMore⟩
    rw [List.cons_append, List.cons_append] at hMore
    rcases List.cons.inj hMore with ⟨rfl, hRest⟩
    refine ⟨rfl, payload, ?_, hDenoted⟩
    rw [payload?_eq_some_iff]
    refine ⟨hPayload, more, ?_⟩
    rw [← hRest, List.append_assoc]
    rfl
  · rintro ⟨rfl, payload, hPayload, hDenoted⟩
    rcases payload?_eq_some_iff.mp hPayload with
      ⟨hShape, more, rfl⟩
    exact ⟨_, ⟨payload, hShape, hDenoted, rfl⟩, more, by simp⟩

/- Decoding reads the references of a text. -/
theorem decodes_decode
    (mode : Mode)
    (s : Text) :
    Decodes mode s (decode mode s) := by
  -- where the text begins with no reference that is replaced
  have hChar {c : Char} {rest out : Text}
      (hNot : c = '&' →
        (payload? rest).bind (resolve? mode) = none)
      (hRest : Decodes mode rest out) :
      Decodes mode (c :: rest) (c :: out) := by
    refine .char ?_ hRest
    intro w d hWord hPrefix
    rcases prefix_cons_iff.mp ⟨w, hWord, hPrefix⟩ with
      ⟨hc, hDenoted⟩
    rw [hNot hc] at hDenoted
    cases hDenoted
  fun_induction decode mode s with
  | case1 => exact .nil
  | case2 rest payload hPayload d hDenoted ih =>
      rcases payload?_eq_some_iff.mp hPayload with
        ⟨hShape, more, rfl⟩
      have hMore :
          (payload ++ ';' :: more).drop (payload.length + 1) =
            more := by
        rw [List.drop_length_add_append]
        rfl
      rw [hMore] at ih ⊢
      have hRead :=
        Decodes.reference ⟨payload, hShape, hDenoted, rfl⟩ ih
      simpa using hRead
  | case3 rest payload hPayload hDenoted ih =>
      refine hChar ?_ ih
      intro _
      rw [hPayload, Option.bind_some, hDenoted]
  | case4 rest hPayload ih =>
      refine hChar ?_ ih
      intro _
      rw [hPayload, Option.bind_none]
  | case5 c rest hPlain ih =>
      exact hChar (fun hc => absurd hc hPlain) ih

/- A reference is replaced. -/
theorem decode_reference_append
    {mode : Mode}
    {w : Text}
    {d : Char}
    (h : IsReference mode w d)
    (rest : Text) :
    decode mode (w ++ rest) = d :: decode mode rest := by
  rcases h with ⟨payload, hPayload, hDenoted, rfl⟩
  have hRead :
      payload? (payload ++ ';' :: rest) = some payload :=
    payload?_eq_some_iff.mpr ⟨hPayload, rest, rfl⟩
  have hText :
      '&' :: payload ++ [';'] ++ rest =
        '&' :: (payload ++ ';' :: rest) := by
    simp
  rw [hText, decode, if_pos rfl, hRead]
  simp only [hDenoted]
  rw [List.drop_length_add_append]
  rfl

/- A character that begins no reference stays. -/
theorem decode_cons
    {mode : Mode}
    {c : Char}
    {rest : Text}
    (h : ∀ w d, IsReference mode w d → ¬ w <+: c :: rest) :
    decode mode (c :: rest) = c :: decode mode rest := by
  have hNot (hc : c = '&') :
      (payload? rest).bind (resolve? mode) = none := by
    rw [Option.eq_none_iff_forall_ne_some]
    intro d hDenoted
    rcases prefix_cons_iff.mpr ⟨hc, hDenoted⟩ with
      ⟨w, hWord, hPrefix⟩
    exact h w d hWord hPrefix
  rw [decode]
  split
  · rename_i hc
    split
    · rename_i payload hPayload
      have hNone := hNot hc
      rw [hPayload, Option.bind_some] at hNone
      rw [hNone]
    · rfl
  · rfl

/- A text has one reading, and decoding gives it. -/
theorem decodes_iff
    {mode : Mode}
    {s t : Text} :
    Decodes mode s t ↔ decode mode s = t := by
  constructor
  · intro h
    induction h with
    | nil => rw [decode]
    | reference hWord hRest ih =>
        rw [decode_reference_append hWord, ih]
    | char hNone hRest ih => rw [decode_cons hNone, ih]
  · rintro rfl
    exact decodes_decode mode s

end CharRef

end WebTidy

------------------------------------------------------------
-- Decoding In Parts
------------------------------------------------------------

namespace WebTidy

namespace CharRef

/- Characters that no reference goes on behind. -/
def isEnding
    (c : Char) :
    Bool :=
  c = ';' ∨ (isOutside c ∧ c ≠ '&')

/- Two texts that no reference lies across. -/
def Apart
    (a b : Text) :
    Prop :=
  a.getLast?.all isEnding = true ∨
    b.head?.all isOutside = true

/- Texts are apart if a later part of the first is. -/
theorem Apart.of_append
    {a b c : Text}
    (h : Apart (a ++ b) c) :
    Apart b c := by
  rcases h with hLast | hHead
  · cases b with
    | nil => exact Or.inl rfl
    | cons d rest =>
        rw [List.getLast?_append_of_ne_nil _ (by simp)] at hLast
        exact Or.inl hLast
  · exact Or.inr hHead

/- A reference at the start lies in the first text. -/
theorem Apart.prefix_of_append
    {mode : Mode}
    {a b w : Text}
    {d : Char}
    (h : Apart a b)
    (hSome : a ≠ [])
    (hWord : IsReference mode w d)
    (hPrefix : w <+: a ++ b) :
    w <+: a := by
  rcases hWord.exists_parts with ⟨payload, hParts, hInner, _⟩
  rcases hPrefix with ⟨rest, hRest⟩
  rcases List.append_eq_append_iff.mp hRest with
    ⟨more, hMore, _⟩ | ⟨across, hAcross, hb⟩
  · exact ⟨more, hMore.symm⟩
  · cases across with
    | nil =>
        rw [List.append_nil] at hAcross
        exact hAcross ▸ List.prefix_refl _
    | cons e across =>
        exfalso
        rcases List.exists_cons_of_ne_nil hSome with
          ⟨f, front, rfl⟩
        have hTail :
            front ++ e :: across = payload ++ [';'] := by
          rw [hParts] at hAcross
          exact (List.cons.inj hAcross).2.symm
        have hInit :
            payload = front ++ (e :: across).dropLast := by
          have hDrop := congrArg List.dropLast hTail
          rw [List.dropLast_append_of_ne_nil (by simp),
            List.dropLast_concat] at hDrop
          exact hDrop.symm
        rcases h with hLast | hHead
        · -- the first text ends inside the reference
          have hFirst : f = '&' := by
            rw [hParts] at hAcross
            exact (List.cons.inj hAcross).1.symm
          have hAll : ∀ c ∈ f :: front, isEnding c = false := by
            rw [hFirst]
            intro c hc
            rcases List.mem_cons.mp hc with rfl | hc
            · rfl
            · have hNot := hInner c (by simp [hInit, hc])
              simp [isEnding, hNot]
          rw [Option.all_eq_true] at hLast
          have hEnd :=
            hLast _ (List.getLast?_eq_some_getLast (by simp))
          rw [hAll _ (List.getLast_mem _)] at hEnd
          cases hEnd
        · -- the second text goes on with the reference
          have he : e ∈ payload ++ [';'] := by
            rw [← hTail]
            simp
          have hIn : isOutside e = false := by
            rcases List.mem_append.mp he with he | he
            · exact (hInner e he).1
            · rw [List.mem_singleton.mp he]
              rfl
          rw [hb, List.cons_append, List.head?_cons,
            Option.all_some, hIn] at hHead
          cases hHead

/- Texts that are apart are read one after the other. -/
theorem Decodes.append
    {mode : Mode}
    {a b x y : Text}
    (hLeft : Decodes mode a x)
    (hRight : Decodes mode b y)
    (h : Apart a b) :
    Decodes mode (a ++ b) (x ++ y) := by
  induction hLeft with
  | nil => exact hRight
  | reference hWord hRest ih =>
      rw [List.append_assoc]
      exact .reference hWord (ih h.of_append)
  | @char c rest out hNone hRest ih =>
      refine .char ?_ (ih (Apart.of_append (a := [c]) h))
      intro w d hWord hPrefix
      exact hNone w d hWord
        (h.prefix_of_append (by simp) hWord hPrefix)

/- Texts that are apart are decoded one after the other. -/
theorem decode_append
    (mode : Mode)
    {a b : Text}
    (h : Apart a b) :
    decode mode (a ++ b) = decode mode a ++ decode mode b := by
  rw [← decodes_iff]
  exact (decodes_decode mode a).append (decodes_decode mode b) h

end CharRef

end WebTidy

------------------------------------------------------------
-- Texts Without References
------------------------------------------------------------

namespace WebTidy

namespace CharRef

/- Decoding makes no text longer. -/
theorem Decodes.length_le
    {mode : Mode}
    {s t : Text}
    (h : Decodes mode s t) :
    t.length ≤ s.length := by
  induction h with
  | nil => exact Nat.le_refl _
  | reference hWord hRest ih =>
      rcases hWord.exists_parts with ⟨payload, rfl, _⟩
      simp only [List.length_append, List.length_cons]
      omega
  | char hNone hRest ih => exact Nat.succ_le_succ ih

/- Decoding changes a text exactly if it has a reference. -/
theorem decode_eq_self_iff
    {mode : Mode}
    {s : Text} :
    decode mode s = s ↔
      ∀ w d, IsReference mode w d → ¬ w <:+: s := by
  have hRead := decodes_decode mode s
  generalize decode mode s = t at *
  induction hRead with
  | nil =>
      refine iff_of_true rfl ?_
      intro w d hWord hInfix
      rcases hWord.exists_parts with ⟨payload, rfl, _⟩
      cases List.infix_nil.mp hInfix
  | @reference w rest out d hWord hRest ih =>
      refine iff_of_false ?_ ?_
      · intro hSame
        have hLength := congrArg List.length hSame
        have hShort := hRest.length_le
        rcases hWord.exists_parts with ⟨payload, rfl, _⟩
        simp only [List.length_append, List.length_cons]
          at hLength
        omega
      · intro hNone
        exact hNone w d hWord (List.prefix_append w rest).isInfix
  | @char c rest out hNone hRest ih =>
      refine (List.cons_inj_right c).trans (ih.trans ?_)
      constructor
      · intro hAll w d hWord hInfix
        rcases List.infix_cons_iff.mp hInfix with hFirst | hLater
        · exact hNone w d hWord hFirst
        · exact hAll w d hWord hLater
      · intro hAll w d hWord hInfix
        exact hAll w d hWord (List.infix_cons hInfix)

/- A blank belongs to no reference. -/
theorem of_isBlank
    {c : Char}
    (h : isBlank c = true) :
    isOutside c = true ∧ isEnding c = true := by
  unfold isBlank at h
  rw [decide_eq_true_eq] at h
  rcases h with rfl | rfl | rfl | rfl | rfl <;> decide

/- A reference has no blanks. -/
theorem IsReference.isBlank_eq_false
    {mode : Mode}
    {w : Text}
    {c d : Char}
    (h : IsReference mode w d)
    (hc : c ∈ w) :
    isBlank c = false := by
  rcases h.exists_parts with ⟨payload, rfl, hInner, _⟩
  cases hBlank : isBlank c with
  | false => rfl
  | true =>
      have hOther := of_isBlank hBlank
      rcases List.mem_append.mp hc with hc | hc
      · rcases List.mem_cons.mp hc with rfl | hc
        · cases hBlank
        · rw [(hInner c hc).1] at hOther
          cases hOther.1
      · rw [List.mem_singleton.mp hc] at hBlank
        cases hBlank

/- A text without ampersands has no reference. -/
theorem decode_of_not_mem
    (mode : Mode)
    {s : Text}
    (h : '&' ∉ s) :
    decode mode s = s := by
  rw [decode_eq_self_iff]
  intro w d hWord hInfix
  rcases hWord.exists_parts with ⟨payload, rfl, _⟩
  exact h (hInfix.subset (by simp))

/- Neither has a text of blanks. -/
theorem decode_blanks
    (mode : Mode)
    {blanks : Text}
    (hBlanks : blanks.all isBlank = true) :
    decode mode blanks = blanks := by
  apply decode_of_not_mem
  intro hAmpersand
  cases List.all_eq_true.mp hBlanks '&' hAmpersand

/- Blanks in front of a text stay in front of it. -/
theorem decode_blanks_append
    (mode : Mode)
    {blanks : Text}
    (s : Text)
    (hBlanks : blanks.all isBlank = true) :
    decode mode (blanks ++ s) = blanks ++ decode mode s := by
  have hApart : Apart blanks s := by
    refine Or.inl ?_
    rw [Option.all_eq_true]
    intro c hc
    exact (of_isBlank (List.all_eq_true.mp hBlanks c
      (List.mem_of_getLast? hc))).2
  rw [decode_append mode hApart, decode_blanks mode hBlanks]

/- Blanks behind a text stay behind it. -/
theorem decode_append_blanks
    (mode : Mode)
    (s : Text)
    {blanks : Text}
    (hBlanks : blanks.all isBlank = true) :
    decode mode (s ++ blanks) = decode mode s ++ blanks := by
  have hApart : Apart s blanks := by
    refine Or.inr ?_
    rw [Option.all_eq_true]
    intro c hc
    exact (of_isBlank (List.all_eq_true.mp hBlanks c
      (List.mem_of_head? hc))).1
  rw [decode_append mode hApart, decode_blanks mode hBlanks]

/- A text without references has none after folding. -/
theorem decode_foldFrom
    {mode : Mode}
    {s : Text}
    (inRun : Bool)
    (h : decode mode s = s) :
    decode mode (s.foldFrom isBlank inRun) =
      s.foldFrom isBlank inRun := by
  rw [decode_eq_self_iff] at h ⊢
  intro w d hWord hInfix
  apply h w d hWord
  refine Text.infix_of_infix_foldFrom ?_ ?_ hInfix
  · rcases hWord.exists_parts with ⟨payload, rfl, _⟩
    simp
  · intro c hc
    exact hWord.isBlank_eq_false hc

/- Neither has it without the blanks around it. -/
theorem decode_of_blanks_append
    {mode : Mode}
    {lead s tail : Text}
    (hLead : lead.all isBlank = true)
    (hTail : tail.all isBlank = true)
    (h : decode mode (lead ++ s ++ tail) = lead ++ s ++ tail) :
    decode mode s = s := by
  rw [decode_append_blanks mode _ hTail,
    decode_blanks_append mode _ hLead] at h
  exact List.append_cancel_left (List.append_cancel_right h)

end CharRef

end WebTidy
