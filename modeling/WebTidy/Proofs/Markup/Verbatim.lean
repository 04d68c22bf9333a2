import WebTidy.Proofs.Markup.Rescan

/-
  Verbatim elements, by the places in a text.

  A verbatim element begins with one of four names, and it
  ends with the first end tag of that name.  The search
  tries one place after the other.  An end tag has its only
  opening bracket at its start, so the one that starts first
  is also the one that ends first.

  Key definitions include:
    * `WebTidy.Markup.EndsAt`
    * `WebTidy.Markup.nameBehind`
    * `WebTidy.Markup.OpensVerbatim`

  Key theorems include:
    * `WebTidy.Markup.endsAt_drop_iff`
    * `WebTidy.Markup.throughEndTag?_eq_some_iff`
    * `WebTidy.Markup.verbatimLength?_drop_iff`
-/

------------------------------------------------------------
-- Places Of End Tags
------------------------------------------------------------

namespace WebTidy

namespace Markup

/-
  An end tag of a name ends before the index `stop`, and it
  starts at the index `start` or behind it.
-/
def EndsAt
    (name s : Text)
    (start stop : Nat) :
    Prop :=
  ∃ p, start ≤ p ∧ p ≤ stop ∧ stop ≤ s.length ∧
    IsEndTag name ((s.drop p).take (stop - p))

/- An end tag at its place, with what stands around it. -/
theorem endsAt_iff
    {name s : Text}
    {start stop : Nat} :
    EndsAt name s start stop ↔
      ∃ lead w rest : Text,
        s = lead ++ (w ++ rest) ∧ IsEndTag name w ∧
          start ≤ lead.length ∧
          stop = lead.length + w.length := by
  constructor
  · rintro ⟨p, hStart, hStop, hInside, hEnd⟩
    refine ⟨s.take p, _, s.drop stop, ?_, hEnd, ?_, ?_⟩
    · have hBehind :
          s.drop stop = (s.drop p).drop (stop - p) := by
        rw [List.drop_drop]
        congr 1
        omega
      rw [hBehind, List.take_append_drop, List.take_append_drop]
    · rw [List.length_take]
      omega
    · rw [List.length_take, List.length_take, List.length_drop]
      omega
  · rintro ⟨lead, w, rest, rfl, hEnd, hStart, rfl⟩
    refine ⟨lead.length, hStart, Nat.le_add_right _ _, ?_, ?_⟩
    · simp only [List.length_append]
      omega
    · rw [List.drop_left, Nat.add_sub_cancel_left,
        List.take_left]
      exact hEnd

/- Places behind an index are places of the rest. -/
theorem endsAt_drop_iff
    {name s : Text}
    {start stop : Nat}
    (hStart : start ≤ s.length) :
    EndsAt name s start stop ↔
      ∃ n, stop = start + n ∧
        EndsAt name (s.drop start) 0 n := by
  constructor
  · rintro ⟨p, hFrom, hStop, hInside, hEnd⟩
    refine ⟨stop - start, by omega, p - start, Nat.zero_le _,
      by omega, ?_, ?_⟩
    · rw [List.length_drop]
      omega
    · rw [List.drop_drop, Nat.add_sub_cancel' hFrom,
        Nat.sub_sub_sub_cancel_right hFrom]
      exact hEnd
  · rintro ⟨n, rfl, p, _, hStop, hInside, hEnd⟩
    rw [List.length_drop] at hInside
    rw [List.drop_drop] at hEnd
    refine ⟨start + p, by omega, by omega, by omega, ?_⟩
    rw [Nat.add_sub_add_left]
    exact hEnd

/- Nothing ends where no end tag stands. -/
theorem endsAt_infix_iff
    {name s : Text} :
    (∃ n, EndsAt name s 0 n) ↔
      ∃ w, IsEndTag name w ∧ w <:+: s := by
  simp only [endsAt_iff]
  constructor
  · rintro ⟨_, lead, w, rest, rfl, hEnd, _⟩
    exact ⟨w, hEnd, lead, rest, by simp⟩
  · rintro ⟨w, hEnd, lead, rest, rfl⟩
    exact ⟨_, lead, w, rest, by simp, hEnd, Nat.zero_le _, rfl⟩

end Markup

end WebTidy

------------------------------------------------------------
-- The First End Tag
------------------------------------------------------------

namespace WebTidy

namespace Markup

/- An end tag at the start ends before all others. -/
theorem length_le_of_endTagLength?
    {name s : Text}
    {n stop : Nat}
    (hName : isVerbatim name = true)
    (h : endTagLength? name s = some n)
    (hStop : EndsAt name s 0 stop) :
    n ≤ stop := by
  rcases exists_of_endTagLength? h with
    ⟨w, tail, hEnd, hText, rfl⟩
  rcases endsAt_iff.mp hStop with
    ⟨lead, other, rest, hOther, hOtherEnd, _, rfl⟩
  cases lead with
  | nil =>
      rw [List.nil_append] at hOther
      rcases hOtherEnd with
        ⟨letters, blanks, hSame, hBlanks, rfl⟩
      rw [hOther, endTagLength?_append rest hSame hBlanks,
        Option.some_inj] at h
      rw [← h]
      exact Nat.le_add_left _ _
  | cons c lead =>
      -- the bracket of the other end tag is not in this one
      rcases (Closer.endTag hName hEnd).exists_parts with
        ⟨first, body, hParts, _, hOpen, _⟩
      have hBehind : w.length ≤ (c :: lead).length := by
        by_contra hInside
        have hBracket : s[(c :: lead).length]? = some '<' := by
          rcases hOtherEnd with ⟨letters, blanks, _, _, rfl⟩
          rw [hOther, List.getElem?_append_right (Nat.le_refl _),
            Nat.sub_self]
          rfl
        rw [hText, List.getElem?_append_left (by omega), hParts,
          List.length_cons, List.cons_append,
          List.getElem?_cons_succ] at hBracket
        have hMem := List.mem_of_getElem? hBracket
        rcases List.mem_append.mp hMem with hMem | hMem
        · exact hOpen hMem
        · cases List.mem_singleton.mp hMem
      omega

/- The search finds the end tag that ends first. -/
theorem endsAt_of_throughEndTag?
    {name s : Text}
    {n : Nat}
    (hName : isVerbatim name = true)
    (h : throughEndTag? name s = some n) :
    EndsAt name s 0 n ∧
      ∀ stop, EndsAt name s 0 stop → n ≤ stop := by
  induction s generalizing n with
  | nil => cases h
  | cons c rest ih =>
      rw [throughEndTag?] at h
      split at h
      · rename_i m hFirst
        cases h
        constructor
        · rcases exists_of_endTagLength? hFirst with
            ⟨w, tail, hEnd, hText, rfl⟩
          rw [endsAt_iff]
          exact ⟨[], w, tail, hText, hEnd, Nat.le_refl _,
            (Nat.zero_add _).symm⟩
        · intro stop hStop
          exact length_le_of_endTagLength? hName hFirst hStop
      · rename_i hFirst
        rcases Option.map_eq_some_iff.mp h with ⟨m, hm, rfl⟩
        rcases ih hm with ⟨hEnds, hLeast⟩
        constructor
        · rcases endsAt_iff.mp hEnds with
            ⟨lead, w, tail, hText, hEnd, hStart, rfl⟩
          rw [endsAt_iff]
          refine ⟨c :: lead, w, tail, ?_, hEnd, Nat.zero_le _, ?_⟩
          · rw [hText, List.cons_append]
          · rw [List.length_cons]
            omega
        · intro stop hStop
          rcases endsAt_iff.mp hStop with
            ⟨lead, w, tail, hText, hEnd, hStart, rfl⟩
          cases lead with
          | nil =>
              rcases hEnd with
                ⟨letters, blanks, hSame, hBlanks, rfl⟩
              rw [List.nil_append] at hText
              rw [hText, endTagLength?_append tail hSame hBlanks]
                at hFirst
              cases hFirst
          | cons d lead =>
              rcases List.cons.inj hText with ⟨rfl, hRest⟩
              have hLater :=
                hLeast (lead.length + w.length) (by
                  rw [endsAt_iff]
                  exact ⟨lead, w, tail, hRest, hEnd,
                    Nat.zero_le _, rfl⟩)
              rw [List.length_cons]
              omega

/- What the search finds, and that it finds it. -/
theorem throughEndTag?_eq_some_iff
    {name s : Text}
    {n : Nat}
    (hName : isVerbatim name = true) :
    throughEndTag? name s = some n ↔
      EndsAt name s 0 n ∧
        ∀ stop, EndsAt name s 0 stop → n ≤ stop := by
  constructor
  · exact endsAt_of_throughEndTag? hName
  · rintro ⟨hEnds, hLeast⟩
    cases hFound : throughEndTag? name s with
    | none =>
        rw [throughEndTag?_eq_none_iff] at hFound
        rcases endsAt_infix_iff.mp ⟨n, hEnds⟩ with
          ⟨w, hEnd, hInfix⟩
        exact absurd hInfix (hFound w hEnd)
    | some m =>
        rcases endsAt_of_throughEndTag? hName hFound with
          ⟨hOther, hOtherLeast⟩
        have hOne := hLeast m hOther
        have hTwo := hOtherLeast n hEnds
        congr 1
        omega

end Markup

end WebTidy

------------------------------------------------------------
-- Verbatim Elements
------------------------------------------------------------

namespace WebTidy

namespace Markup

/- The longest run of name characters behind an index. -/
def nameBehind
    (s : Text)
    (i : Nat) :
    Text :=
  (s.drop (i + 1)).takeWhile isNameChar

/-
  One of four names stands behind an index, in any case of
  its letters, and it is not the start of a longer word.
-/
structure OpensVerbatim
    (s : Text)
    (i : Nat) :
    Prop where
  listed :
    (nameBehind s i).lower ∈
      ["pre".toList, "textarea".toList, "script".toList,
        "style".toList]
  ends :
    ∀ c, s[i + 1 + (nameBehind s i).length]? = some c →
      isBlank c = true ∨ c = '>' ∨ c = '/'

/- The four names are those of the verbatim elements. -/
theorem isVerbatim_iff
    (name : Text) :
    isVerbatim name = true ↔
      name.lower ∈
        ["pre".toList, "textarea".toList, "script".toList,
          "style".toList] := by
  simp [isVerbatim, isAmong, Text.sameLetters, Text.lower]

/- What is tested at a place is that an element opens there. -/
theorem opensVerbatim_iff
    (s : Text)
    (i : Nat) :
    OpensVerbatim s i ↔
      isVerbatim (nameBehind s i) = true ∧
        endsName
          (s.drop (i + 1 + (nameBehind s i).length)) = true := by
  have hEnds :
      endsName (s.drop (i + 1 + (nameBehind s i).length)) =
          true ↔
        ∀ c, s[i + 1 + (nameBehind s i).length]? = some c →
          isBlank c = true ∨ c = '>' ∨ c = '/' := by
    rw [endsName, List.head?_drop, Option.all_eq_true]
    simp only [decide_eq_true_eq]
  rw [isVerbatim_iff, hEnds]
  constructor
  · rintro ⟨hListed, hEnd⟩
    exact ⟨hListed, hEnd⟩
  · rintro ⟨hListed, hEnd⟩
    exact ⟨hListed, hEnd⟩

/- A verbatim element at an index, by name and search. -/
theorem verbatimLength?_drop
    (s : Text)
    (i : Nat) :
    (verbatimLength? (s.drop i)).map (i + ·) =
      if isVerbatim (nameBehind s i) ∧
          endsName (s.drop (i + 1 + (nameBehind s i).length))
      then
        (throughEndTag? (nameBehind s i)
          (s.drop (i + 1 + (nameBehind s i).length))).map
            (i + 1 + (nameBehind s i).length + ·)
      else none := by
  have hName :
      ((s.drop i).drop 1).takeWhile isNameChar =
        nameBehind s i := by
    rw [List.drop_drop]
    rfl
  rw [verbatimLength?, hName]
  simp only [List.drop_drop, ← Nat.add_assoc]
  split
  · rw [Option.map_map]
    congr 1
    funext n
    simp only [Function.comp_apply]
    omega
  · rfl

/- A name behind an index lies inside the text. -/
theorem length_nameBehind_le
    {s : Text}
    {i : Nat}
    (h : isVerbatim (nameBehind s i) = true) :
    i + 1 + (nameBehind s i).length ≤ s.length := by
  have hSome : nameBehind s i ≠ [] := by
    intro hNil
    rw [hNil] at h
    cases h
  have hPos := List.length_pos_iff.mpr hSome
  have hShort : (nameBehind s i).length ≤ s.length - (i + 1) := by
    rw [← List.length_drop]
    exact (List.takeWhile_prefix isNameChar).length_le
  omega

/-
  At every index, a verbatim element is recognized exactly
  if one of the four names stands behind the index, ends
  there, and has an end tag behind it; and the element then
  ends where the first of these end tags ends.
-/
theorem verbatimLength?_drop_iff
    (s : Text)
    (i : Nat) :
    (∀ stop,
      (verbatimLength? (s.drop i)).map (i + ·) = some stop ↔
        OpensVerbatim s i ∧
        EndsAt (nameBehind s i) s
          (i + 1 + (nameBehind s i).length) stop ∧
        ∀ other,
          EndsAt (nameBehind s i) s
            (i + 1 + (nameBehind s i).length) other →
          stop ≤ other) ∧
    ((verbatimLength? (s.drop i)).map (i + ·) = none ↔
      ¬ OpensVerbatim s i ∨
      ∀ stop,
        ¬ EndsAt (nameBehind s i) s
          (i + 1 + (nameBehind s i).length) stop) := by
  rw [verbatimLength?_drop, opensVerbatim_iff]
  by_cases hOpens :
      isVerbatim (nameBehind s i) = true ∧
        endsName
          (s.drop (i + 1 + (nameBehind s i).length)) = true
  · have hInside := length_nameBehind_le hOpens.1
    simp only [if_pos hOpens, endsAt_drop_iff hInside]
    generalize i + 1 + (nameBehind s i).length = start at *
    constructor
    · intro stop
      simp only [Option.map_eq_some_iff,
        throughEndTag?_eq_some_iff hOpens.1]
      constructor
      · rintro ⟨n, ⟨hEnds, hLeast⟩, rfl⟩
        refine ⟨hOpens, ⟨n, rfl, hEnds⟩, ?_⟩
        rintro _ ⟨m, rfl, hOther⟩
        exact Nat.add_le_add_left (hLeast m hOther) start
      · rintro ⟨_, ⟨n, rfl, hEnds⟩, hLeast⟩
        refine ⟨n, ⟨hEnds, ?_⟩, rfl⟩
        intro m hOther
        exact Nat.le_of_add_le_add_left
          (hLeast (start + m) ⟨m, rfl, hOther⟩)
    · rw [Option.map_eq_none_iff, throughEndTag?_eq_none_iff]
      constructor
      · rintro hNone
        refine Or.inr ?_
        rintro _ ⟨n, rfl, hEnds⟩
        rcases endsAt_infix_iff.mp ⟨n, hEnds⟩ with
          ⟨w, hEnd, hInfix⟩
        exact hNone w hEnd hInfix
      · rintro (hNot | hNone) w hEnd hInfix
        · exact hNot hOpens
        · rcases endsAt_infix_iff.mpr ⟨w, hEnd, hInfix⟩ with
            ⟨n, hEnds⟩
          exact hNone (start + n) ⟨n, rfl, hEnds⟩
  · simp [hOpens]

/- Words that only resemble the end tag do not end it. -/
example :
    verbatimLength?
        "<pre></prefix></pre<</PRE >x".toList = some 27 := by
  decide

end Markup

end WebTidy
