import Mathlib.Data.List.DropRight
import Mathlib.Data.List.TakeWhile
import WebTidy.Text.Blank

/-
  Laws of texts that the style sheet theory and the markup
  theory share: searching below a longer text, trimming,
  texts between two marks, and folded texts.

  Key definitions include:
    * `WebTidy.Text.ClosesFirst`
    * `WebTidy.Text.Folds`

  Key theorems include:
    * `WebTidy.Text.indexOf?_append`
    * `WebTidy.Text.indexOf?_take`
    * `WebTidy.Text.indexOf?_eq_some_iff`
    * `WebTidy.Text.map_indexOf?_eq_none_iff`
    * `WebTidy.Text.exists_trimEnd_append`
    * `WebTidy.Text.trim_append`
    * `WebTidy.Text.trim_ends`
    * `WebTidy.Text.infix_of_infix_foldFrom`
    * `WebTidy.Text.closesFirst_iff`
    * `WebTidy.Text.folds_iff`
-/

------------------------------------------------------------
-- Searching
------------------------------------------------------------

namespace WebTidy

namespace Text

/- An occurrence lies inside the text. -/
theorem length_le_of_indexOf?
    {mark s : Text}
    {n : Nat}
    (h : indexOf? mark s = some n) :
    n + mark.length ≤ s.length := by
  induction s generalizing n with
  | nil =>
      by_cases hMark : mark = []
      · subst mark
        simp [indexOf?] at h
        simp [← h]
      · simp [indexOf?, hMark] at h
  | cons c rest ih =>
      unfold indexOf? at h
      split at h
      · rename_i hPrefix
        cases h
        simpa using hPrefix.length_le
      · rcases Option.map_eq_some_iff.mp h with
          ⟨m, hm, rfl⟩
        have hBound := ih hm
        simp only [List.length_cons]
        omega

/- The mark stands where it is found. -/
theorem prefix_of_indexOf?
    {mark s : Text}
    {n : Nat}
    (h : indexOf? mark s = some n) :
    mark <+: s.drop n := by
  induction s generalizing n with
  | nil =>
      by_cases hMark : mark = []
      · subst mark
        exact List.nil_prefix
      · simp [indexOf?, hMark] at h
  | cons c rest ih =>
      unfold indexOf? at h
      split at h
      · rename_i hPrefix
        cases h
        exact hPrefix
      · rcases Option.map_eq_some_iff.mp h with
          ⟨m, hm, rfl⟩
        exact ih hm

/- The first occurrence does not move in a longer text. -/
theorem indexOf?_append
    {mark s : Text}
    {n : Nat}
    (rest : Text)
    (h : indexOf? mark s = some n) :
    indexOf? mark (s ++ rest) = some n := by
  induction s generalizing n with
  | nil =>
      by_cases hMark : mark = []
      · subst mark
        cases rest <;> simp_all [indexOf?]
      · simp [indexOf?, hMark] at h
  | cons c tail ih =>
      unfold indexOf? at h
      rw [List.cons_append, indexOf?]
      split at h
      · rename_i hPrefix
        cases h
        rw [if_pos]
        exact hPrefix.trans (List.prefix_append _ _)
      · rename_i hPrefix
        rcases Option.map_eq_some_iff.mp h with
          ⟨m, hm, rfl⟩
        have hBound := length_le_of_indexOf? hm
        have hNot : ¬ mark <+: c :: (tail ++ rest) := by
          intro hLong
          apply hPrefix
          apply List.prefix_of_prefix_length_le hLong
            (List.prefix_append (c :: tail) rest)
          simp only [List.length_cons]
          omega
        rw [if_neg hNot, ih hm]
        rfl

/- The first occurrence is found in the text up to it. -/
theorem indexOf?_take
    {mark s : Text}
    {n : Nat}
    (h : indexOf? mark s = some n) :
    indexOf? mark (s.take (n + mark.length)) = some n := by
  induction s generalizing n with
  | nil =>
      by_cases hMark : mark = []
      · simp_all [indexOf?]
      · simp [indexOf?, hMark] at h
  | cons c tail ih =>
      unfold indexOf? at h
      split at h
      · rename_i hPrefix
        cases h
        rw [Nat.zero_add,
          ← List.prefix_iff_eq_take.mp hPrefix]
        cases mark <;> simp [indexOf?]
      · rename_i hPrefix
        rcases Option.map_eq_some_iff.mp h with
          ⟨m, hm, rfl⟩
        have hNot :
            ¬ mark <+:
              c :: tail.take (m + mark.length) := by
          intro hShort
          apply hPrefix
          exact hShort.trans
            ((List.cons_prefix_cons).mpr
              ⟨rfl, List.take_prefix _ _⟩)
        rw [show m + 1 + mark.length =
          (m + mark.length) + 1 by omega,
          List.take_succ_cons, indexOf?, if_neg hNot,
          ih hm]
        rfl

/- A mark that is not found stands nowhere. -/
theorem indexOf?_eq_none_iff
    {mark s : Text}
    (hMark : mark ≠ []) :
    indexOf? mark s = none ↔ ¬ mark <:+: s := by
  induction s with
  | nil => simp [indexOf?, hMark]
  | cons c rest ih =>
      rw [indexOf?, List.infix_cons_iff]
      by_cases hPrefix : mark <+: c :: rest
      · simp [hPrefix]
      · simp [hPrefix, ih]

/- No mark stands before its first occurrence. -/
theorem not_prefix_of_lt_indexOf?
    {mark s : Text}
    {n j : Nat}
    (h : indexOf? mark s = some n)
    (hj : j < n) :
    ¬ mark <+: s.drop j := by
  induction s generalizing n j with
  | nil =>
      unfold indexOf? at h
      split at h
      · cases h
        omega
      · cases h
  | cons c rest ih =>
      unfold indexOf? at h
      split at h
      · cases h
        omega
      · rename_i hStart
        rcases Option.map_eq_some_iff.mp h with ⟨m, hm, rfl⟩
        cases j with
        | zero => exact hStart
        | succ i =>
            rw [List.drop_succ_cons]
            exact ih hm (by omega)

/- Where a mark is found first. -/
theorem indexOf?_eq_some_iff
    {mark s : Text}
    {n : Nat}
    (hMark : mark ≠ []) :
    indexOf? mark s = some n ↔
      mark <+: s.drop n ∧ ∀ j < n, ¬ mark <+: s.drop j := by
  constructor
  · intro h
    exact ⟨prefix_of_indexOf? h,
      fun j hj => not_prefix_of_lt_indexOf? h hj⟩
  · rintro ⟨hHere, hFirst⟩
    cases hFound : indexOf? mark s with
    | none =>
        rw [indexOf?_eq_none_iff hMark] at hFound
        exact absurd
          (hHere.isInfix.trans (List.drop_suffix n s).isInfix)
          hFound
    | some m =>
        rcases Nat.lt_trichotomy m n with hm | rfl | hm
        · exact absurd (prefix_of_indexOf? hFound) (hFirst m hm)
        · rfl
        · exact absurd hHere (not_prefix_of_lt_indexOf? hFound hm)

/- What is enclosed by two marks is found by the marks. -/
theorem map_indexOf?_eq_none_iff
    {opening close s : Text}
    (hClose : close ≠ [])
    (k : Nat) :
    (if opening <+: s then
      (indexOf? close (s.drop opening.length)).map (· + k)
    else none) = none ↔
      ∀ body, ¬ opening ++ body ++ close <+: s := by
  split
  · rename_i hOpen
    rcases hOpen with ⟨rest, rfl⟩
    rw [Option.map_eq_none_iff, List.drop_left,
      indexOf?_eq_none_iff hClose]
    constructor
    · rintro hNone body ⟨back, hBack⟩
      apply hNone
      refine ⟨body, back, ?_⟩
      simpa using hBack
    · rintro hNone ⟨body, back, rfl⟩
      apply hNone body
      exact ⟨back, by simp⟩
  · rename_i hOpen
    refine iff_of_true rfl ?_
    intro body hPrefix
    apply hOpen
    rw [List.append_assoc] at hPrefix
    exact (List.prefix_append _ _).trans hPrefix

/- A mark is compared letter by letter. -/
theorem beginsWith_cons
    (m c : Char)
    (mark rest : Text) :
    beginsWith (m :: mark) (c :: rest) =
      (decide (c.toLower = m.toLower) &&
        beginsWith mark rest) := by
  simp [beginsWith, sameLetters, lower]

/- The character behind a run. -/
theorem exists_of_getElem?_takeWhile
    {p : Char → Bool}
    {t : Text}
    {c : Char}
    (h : t[(t.takeWhile p).length]? = some c) :
    ∃ rest, t = t.takeWhile p ++ c :: rest := by
  have hSplit := List.takeWhile_append_dropWhile (p := p) (l := t)
  refine ⟨(t.dropWhile p).tail, ?_⟩
  have hHead : (t.dropWhile p).head? = some c := by
    rw [← h, List.head?_eq_getElem?]
    conv_rhs => rw [← hSplit]
    rw [List.getElem?_append_right (by simp [hSplit])]
    simp [hSplit]
  rw [List.head?_eq_some_iff] at hHead
  rcases hHead with ⟨rest, hRest⟩
  rw [hRest, List.tail_cons, ← hRest, hSplit]

end Text

end WebTidy

------------------------------------------------------------
-- Trimming
------------------------------------------------------------

namespace WebTidy

namespace Text

/- A class is dropped up to a character outside it. -/
theorem dropWhile_reverse_append
    {p : Char → Bool}
    {t : Text}
    (base : Text)
    (h : t.any (!p ·) = true) :
    (t.reverse ++ base).dropWhile p =
      (t.trimEnd p).reverse ++ base := by
  have hSome : (t.reverse.dropWhile p).isEmpty = false := by
    rw [List.isEmpty_eq_false_iff]
    intro hNil
    rw [List.dropWhile_eq_nil_iff] at hNil
    rcases List.any_eq_true.mp h with ⟨c, hc, hOut⟩
    have hIn := hNil c (by simpa using hc)
    simp [hIn] at hOut
  rw [List.dropWhile_append, hSome, trimEnd]
  simp

/- A text is in the class, or has a first character outside. -/
theorem all_or_exists
    (p : Char → Bool)
    (t : Text) :
    t.all p = true ∨
      ∃ lead c rest,
        t = lead ++ c :: rest ∧
        List.all lead p = true ∧ p c = false := by
  have hSplit :=
    List.takeWhile_append_dropWhile (p := p) (l := t)
  cases hRest : t.dropWhile p with
  | nil =>
      apply Or.inl
      rw [List.all_eq_true]
      exact List.dropWhile_eq_nil_iff.mp hRest
  | cons c rest =>
      apply Or.inr
      refine ⟨t.takeWhile p, c, rest, ?_, by simp, ?_⟩
      · rw [← hRest, hSplit]
      · have hHead := List.head?_dropWhile_not p t
        rw [hRest] at hHead
        simpa using hHead

/- The class is dropped up to that character. -/
theorem dropWhile_append_cons
    {p : Char → Bool}
    {lead : Text}
    {c : Char}
    (rest : Text)
    (hLead : lead.all p = true)
    (hc : p c = false) :
    (lead ++ c :: rest).dropWhile p = c :: rest := by
  rw [List.dropWhile_append_of_pos (List.all_eq_true.mp hLead),
    List.dropWhile_cons_of_neg (by simp [hc])]

/- Trimming takes a run of the class from the end. -/
theorem exists_trimEnd_append
    (p : Char → Bool)
    (t : Text) :
    ∃ tail : Text,
      tail.all p = true ∧ t = t.trimEnd p ++ tail := by
  refine ⟨(t.reverse.takeWhile p).reverse, by simp, ?_⟩
  rw [trimEnd, ← List.reverse_append,
    List.takeWhile_append_dropWhile, List.reverse_reverse]

/- A trimmed text is the start of the text. -/
theorem trimEnd_prefix
    (p : Char → Bool)
    (t : Text) :
    t.trimEnd p <+: t := by
  rcases exists_trimEnd_append p t with ⟨tail, _, hTail⟩
  exact ⟨tail, hTail.symm⟩

/- Trimming the end keeps a start outside the class. -/
theorem trimEnd_cons
    {p : Char → Bool}
    {c : Char}
    (t : Text)
    (hc : p c = false) :
    trimEnd p (c :: t) = c :: trimEnd p t := by
  rw [trimEnd, List.reverse_cons, List.dropWhile_append]
  split
  · rename_i hNil
    rw [List.isEmpty_iff] at hNil
    rw [trimEnd, hNil]
    simp [hc]
  · rw [List.reverse_append]
    rfl

/- Trimming a trimmed end and more of the class. -/
theorem trimEnd_trimEnd_append
    {p : Char → Bool}
    (t : Text)
    {tail : Text}
    (hTail : tail.all p = true) :
    trimEnd p (t.trimEnd p ++ tail) = t.trimEnd p := by
  have hIn : ∀ c ∈ tail.reverse, p c = true := by
    simpa using hTail
  rw [trimEnd, trimEnd, List.reverse_append,
    List.dropWhile_append_of_pos hIn, List.reverse_reverse,
    List.dropWhile_idempotent]

/- Nothing is trimmed off an end outside the class. -/
theorem trimEnd_append
    {p : Char → Bool}
    {t tail : Text}
    (hTail : tail.all p = true)
    (hLast : t.getLast?.all (!p ·) = true) :
    trimEnd p (t ++ tail) = t := by
  have hIn : ∀ c ∈ tail.reverse, p c = true := by
    simpa using hTail
  have hKeep : t.reverse.dropWhile p = t.reverse := by
    rw [← List.head?_reverse] at hLast
    cases hHead : t.reverse with
    | nil => rfl
    | cons c rest =>
        rw [hHead] at hLast
        rw [List.dropWhile_cons_of_neg]
        simpa using hLast
  rw [trimEnd, List.reverse_append,
    List.dropWhile_append_of_pos hIn, hKeep,
    List.reverse_reverse]

/- A text between two runs of the class is trimmed to it. -/
theorem trim_append
    {p : Char → Bool}
    {lead t tail : Text}
    (hLead : lead.all p = true)
    (hTail : tail.all p = true)
    (hFirst : t.head?.all (!p ·) = true)
    (hLast : t.getLast?.all (!p ·) = true) :
    trim p (lead ++ t ++ tail) = t := by
  have hIn : ∀ c ∈ lead, p c = true := by
    simpa using hLead
  rw [trim, List.append_assoc,
    List.dropWhile_append_of_pos hIn]
  cases t with
  | nil =>
      have hNil : List.dropWhile p ([] ++ tail) = [] := by
        rw [List.nil_append, List.dropWhile_eq_nil_iff]
        simpa using hTail
      rw [hNil]
      rfl
  | cons c rest =>
      rw [List.cons_append, List.dropWhile_cons_of_neg
        (by simpa using hFirst), ← List.cons_append,
        trimEnd_append hTail hLast]

/- A trimmed text has no character of the class at its ends. -/
theorem trim_ends
    (p : Char → Bool)
    (t : Text) :
    (t.trim p).head?.all (!p ·) = true ∧
      (t.trim p).getLast?.all (!p ·) = true := by
  constructor
  · rcases all_or_exists p t with
      hAll | ⟨lead, c, rest, rfl, hLead, hc⟩
    · rw [trim, List.dropWhile_eq_nil_iff.mpr
        (List.all_eq_true.mp hAll)]
      rfl
    · rw [trim, dropWhile_append_cons rest hLead hc,
        trimEnd_cons rest hc, List.head?_cons, Option.all_some,
        hc]
      rfl
  · rw [trim, trimEnd, List.getLast?_reverse]
    have hHead :=
      List.head?_dropWhile_not p (t.dropWhile p).reverse
    cases hLast :
        ((t.dropWhile p).reverse.dropWhile p).head? with
    | none => rfl
    | some c =>
        rw [hLast] at hHead
        simpa using hHead

/- The first character outside a class. -/
theorem head?_dropWhile
    (p : Char → Bool)
    (s : Text) :
    (s.dropWhile p).head? = s.find? (!p ·) := by
  induction s with
  | nil => rfl
  | cons c rest ih =>
      cases hc : p c with
      | true =>
          rw [List.dropWhile_cons_of_pos hc,
            List.find?_cons_of_neg (by simp [hc]), ih]
      | false =>
          rw [List.dropWhile_cons_of_neg (by simp [hc]),
            List.find?_cons_of_pos (by simp [hc])]
          rfl

/- A class is dropped up to what begins outside it. -/
theorem dropWhile_append_of_head?
    {p : Char → Bool}
    (s : Text)
    {t : Text}
    (h : t.head?.all (!p ·) = true) :
    (s ++ t).dropWhile p = s.dropWhile p ++ t := by
  have hStay : t.dropWhile p = t := by
    cases t with
    | nil => rfl
    | cons c rest =>
        rw [List.dropWhile_cons_of_neg]
        simpa using h
  rw [List.dropWhile_append, hStay]
  split
  · rename_i hEmpty
    rw [List.isEmpty_iff.mp hEmpty, List.nil_append]
  · rfl

/- The last character of a trimmed text. -/
theorem getLast?_trimEnd
    (p : Char → Bool)
    (s : Text) :
    (s.trimEnd p).getLast? = s.reverse.find? (!p ·) := by
  rw [trimEnd, List.getLast?_reverse, head?_dropWhile]

/- Trimming the start does not change the last character. -/
theorem getLast?_trim
    (p : Char → Bool)
    (s : Text) :
    (s.trim p).getLast? = s.reverse.find? (!p ·) := by
  rw [trim, getLast?_trimEnd]
  conv_rhs =>
    rw [← List.takeWhile_append_dropWhile (p := p) (l := s),
      List.reverse_append, List.find?_append]
  have hNone :
      (s.takeWhile p).reverse.find? (!p ·) = none := by
    rw [List.find?_eq_none]
    intro c hc
    simp [List.mem_takeWhile_imp (List.mem_reverse.mp hc)]
  rw [hNone, Option.or_none]

/- Trimming leaves no character of the class at the end. -/
theorem trimEnd_ends
    (p : Char → Bool)
    (t : Text) :
    (t.trimEnd p).getLast?.all (!p ·) = true := by
  rw [getLast?_trimEnd, Option.all_eq_true]
  intro c hc
  have hOut := List.find?_some hc
  exact hOut

/- Trimming takes a run of the class from each end. -/
theorem exists_trim_append
    (p : Char → Bool)
    (t : Text) :
    ∃ lead tail : Text,
      lead.all p = true ∧ tail.all p = true ∧
      t = lead ++ t.trim p ++ tail := by
  rcases exists_trimEnd_append p (t.dropWhile p) with
    ⟨tail, hTail, ht⟩
  refine ⟨t.takeWhile p, tail, by simp, hTail, ?_⟩
  rw [trim, List.append_assoc, ← ht,
    List.takeWhile_append_dropWhile]

/- Only a text of the class is trimmed to nothing. -/
theorem trim_eq_nil_iff
    {p : Char → Bool}
    {s : Text} :
    s.trim p = [] ↔ s.all p = true := by
  constructor
  · intro h
    rcases exists_trim_append p s with
      ⟨lead, tail, hLead, hTail, hs⟩
    rw [hs, h, List.append_nil, List.all_append, hLead, hTail]
    rfl
  · intro h
    have hNone : s.dropWhile p = [] :=
      List.dropWhile_eq_nil_iff.mpr (List.all_eq_true.mp h)
    rw [trim, hNone]
    rfl

/- Trimming twice is trimming once. -/
theorem trim_trim
    (p : Char → Bool)
    (t : Text) :
    (t.trim p).trim p = t.trim p := by
  have hEnds := trim_ends p t
  have hTrim :=
    @trim_append p [] (t.trim p) [] rfl rfl hEnds.1 hEnds.2
  rwa [List.nil_append, List.append_nil] at hTrim

/- Inside a run, folding drops the rest of the run. -/
theorem foldFrom_true
    (p : Char → Bool)
    (t : Text) :
    foldFrom p true t = foldFrom p false (t.dropWhile p) := by
  induction t with
  | nil => rfl
  | cons c rest ih =>
      by_cases hc : p c = true
      · simp [foldFrom, hc, ih]
      · simp [foldFrom, hc]

/- A word at the start of a folded text stands in the text. -/
theorem prefix_of_prefix_foldFrom
    {w s : Text}
    (hWord : ∀ c ∈ w, isBlank c = false)
    (h : w <+: s.foldFrom isBlank false) :
    w <+: s := by
  induction w generalizing s with
  | nil => exact List.nil_prefix
  | cons c w ih =>
      have hc := hWord c (by simp)
      cases s with
      | nil => exact absurd h (by simp [foldFrom])
      | cons d rest =>
          rw [foldFrom] at h
          split at h
          · rw [if_neg Bool.false_ne_true,
              List.cons_prefix_cons] at h
            rw [h.1] at hc
            cases hc
          · rw [List.cons_prefix_cons] at h ⊢
            refine ⟨h.1, ih ?_ h.2⟩
            intro e he
            exact hWord e (by simp [he])

/- A word in a folded text stands in the text itself. -/
theorem infix_of_infix_foldFrom
    {w s : Text}
    {inRun : Bool}
    (hSome : w ≠ [])
    (hWord : ∀ c ∈ w, isBlank c = false)
    (h : w <:+: s.foldFrom isBlank inRun) :
    w <:+: s := by
  induction s generalizing inRun with
  | nil => exact h
  | cons d rest ih =>
      rw [foldFrom] at h
      split at h
      · have hLater : w <:+: foldFrom isBlank true rest := by
          cases inRun with
          | true => exact h
          | false =>
              rcases List.infix_cons_iff.mp h with hFirst | h
              · rcases List.exists_cons_of_ne_nil hSome with
                  ⟨c, w, rfl⟩
                have hc := hWord c (by simp)
                rw [(List.cons_prefix_cons.mp hFirst).1] at hc
                cases hc
              · exact h
        exact List.infix_cons (ih hLater)
      · rename_i hd
        rcases List.infix_cons_iff.mp h with hFirst | h
        · apply List.IsPrefix.isInfix
          apply prefix_of_prefix_foldFrom hWord
          rw [foldFrom, if_neg hd]
          exact hFirst
        · exact List.infix_cons (ih h)

end Text

end WebTidy

------------------------------------------------------------
-- Closing Marks
------------------------------------------------------------

namespace WebTidy

namespace Text

/-
  A text from an opening mark to the first closing mark
  behind it, which is the end of the text.
-/
def ClosesFirst
    (opening close t : Text) :
    Prop :=
  opening <+: t ∧
  ∃ k,
    opening.length ≤ k ∧ t.drop k = close ∧
    ∀ j, opening.length ≤ j → j < k → ¬ close <+: t.drop j

/- What is measured by its marks closes with the second. -/
theorem closesFirst_take
    {opening close s : Text}
    {n : Nat}
    (h :
      (if opening <+: s then
        (indexOf? close (s.drop opening.length)).map
          (· + (opening.length + close.length))
      else none) = some n) :
    ClosesFirst opening close (s.take n) := by
  split at h
  · rename_i hOpen
    rcases Option.map_eq_some_iff.mp h with ⟨m, hm, rfl⟩
    rcases hOpen with ⟨rest, rfl⟩
    rw [List.drop_left] at hm
    have hClose := prefix_of_indexOf? hm
    have hTake :
        (opening ++ rest).take
            (m + (opening.length + close.length)) =
          opening ++ rest.take (m + close.length) := by
      rw [Nat.add_left_comm, List.take_length_add_append]
    rw [hTake]
    refine ⟨List.prefix_append _ _, opening.length + m,
      by omega, ?_, ?_⟩
    · rw [List.drop_length_add_append, List.drop_take,
        Nat.add_sub_cancel_left]
      exact (List.prefix_iff_eq_take.mp hClose).symm
    · intro j hStart hEnd hMark
      rcases Nat.exists_eq_add_of_le hStart with ⟨i, rfl⟩
      rw [List.drop_length_add_append, List.drop_take]
        at hMark
      exact not_prefix_of_lt_indexOf? hm (by omega)
        (hMark.trans (List.take_prefix _ _))
  · cases h

/- It is the text at the start that closes so. -/
theorem closesFirst_iff
    {opening close s : Text}
    {n : Nat}
    (hClose : close ≠ []) :
    (if opening <+: s then
      (indexOf? close (s.drop opening.length)).map
        (· + (opening.length + close.length))
    else none) = some n ↔
      ∃ w,
        ClosesFirst opening close w ∧ w <+: s ∧
          w.length = n := by
  constructor
  · intro h
    refine ⟨s.take n, closesFirst_take h, List.take_prefix n s,
      ?_⟩
    split at h
    · rename_i hOpen
      rcases Option.map_eq_some_iff.mp h with ⟨m, hm, rfl⟩
      have hBound := length_le_of_indexOf? hm
      have hOpens := hOpen.length_le
      rw [List.length_drop] at hBound
      rw [List.length_take]
      omega
    · cases h
  · rintro ⟨w, ⟨hOpen, k, hk, hEnd, hFirst⟩, ⟨rest, rfl⟩, rfl⟩
    have hLength : w.length = k + close.length := by
      have hDrop := congrArg List.length hEnd
      have hSome : 0 < close.length :=
        List.length_pos_iff.mpr hClose
      rw [List.length_drop] at hDrop
      omega
    have hFound :
        indexOf? close ((w ++ rest).drop opening.length) =
          some (k - opening.length) := by
      rw [indexOf?_eq_some_iff hClose]
      refine ⟨?_, ?_⟩
      · rw [List.drop_drop, Nat.add_sub_cancel' hk,
          List.drop_append_of_le_length (by omega), hEnd]
        exact List.prefix_append _ _
      · intro j hj hMark
        rw [List.drop_drop,
          List.drop_append_of_le_length (by omega)] at hMark
        apply hFirst (opening.length + j) (by omega) (by omega)
        apply List.prefix_of_prefix_length_le hMark
          (List.prefix_append _ _)
        rw [List.length_drop]
        omega
    rw [if_pos (hOpen.trans (List.prefix_append _ _)), hFound,
      Option.map_some, hLength]
    congr 1
    omega

end Text

end WebTidy

------------------------------------------------------------
-- Folding By Runs
------------------------------------------------------------

namespace WebTidy

namespace Text

/- Folding a run. -/
theorem foldFrom_cons_of_pos
    {p : Char → Bool}
    {c : Char}
    (rest : Text)
    (hc : p c = true) :
    foldFrom p false (c :: rest) =
      ' ' :: foldFrom p false (rest.dropWhile p) := by
  simp [foldFrom, hc, foldFrom_true]

/- Folding a character outside the class. -/
theorem foldFrom_cons_of_neg
    {p : Char → Bool}
    {c : Char}
    (inRun : Bool)
    (rest : Text)
    (hc : p c = false) :
    foldFrom p inRun (c :: rest) =
      c :: foldFrom p false rest := by
  simp [foldFrom, hc]

/-
  A text with one space for each run of a class.  A run is
  as long as it can be.
-/
inductive Folds
    (p : Char → Bool) :
    Text → Text → Prop
| nil :
    Folds p [] []
| char
    {c : Char}
    {rest out : Text}
    (hc : p c = false)
    (hRest : Folds p rest out) :
    Folds p (c :: rest) (c :: out)
| run
    {run rest out : Text}
    (hSome : run ≠ [])
    (hRun : run.all p = true)
    (hNext : rest.head?.all (!p ·) = true)
    (hRest : Folds p rest out) :
    Folds p (run ++ rest) (' ' :: out)

/- Folding writes one space for each run. -/
theorem folds_fold
    (p : Char → Bool)
    (s : Text) :
    Folds p s (s.fold p) := by
  unfold fold
  -- A run is taken at once, so the induction is on the
  -- length.
  induction hLength : s.length using Nat.strong_induction_on
    generalizing s with
  | _ n ih =>
      cases s with
      | nil => exact .nil
      | cons c rest =>
          rw [List.length_cons] at hLength
          by_cases hc : p c = true
          · have hLess :
                (rest.dropWhile p).length ≤ rest.length :=
              (List.dropWhile_suffix p).length_le
            have hNext :
                (rest.dropWhile p).head?.all (!p ·) = true := by
              have hFirst := List.head?_dropWhile_not p rest
              cases hHead : (rest.dropWhile p).head? with
              | none => rfl
              | some d =>
                  rw [hHead] at hFirst
                  simpa using hFirst
            have hRest :=
              ih _ (by omega) (rest.dropWhile p) rfl
            have hSplit :
                c :: rest =
                  (c :: rest.takeWhile p) ++
                    rest.dropWhile p := by
              simp
            rw [foldFrom_cons_of_pos rest hc, hSplit]
            exact .run (by simp) (by simp [hc]) hNext hRest
          · rw [Bool.not_eq_true] at hc
            rw [foldFrom_cons_of_neg _ rest hc]
            exact .char hc (ih _ (by omega) rest rfl)

/- It is the only text that does. -/
theorem folds_iff
    {p : Char → Bool}
    {s t : Text} :
    Folds p s t ↔ s.fold p = t := by
  constructor
  · intro h
    induction h with
    | nil => rfl
    | char hc hRest ih =>
        rw [fold, foldFrom_cons_of_neg _ _ hc, ← fold, ih]
    | @run run rest out hSome hRun hNext hRest ih =>
        rcases List.exists_cons_of_ne_nil hSome with
          ⟨c, more, rfl⟩
        rw [List.all_cons, Bool.and_eq_true] at hRun
        have hDrop : (more ++ rest).dropWhile p = rest := by
          rw [List.dropWhile_append_of_pos
            (List.all_eq_true.mp hRun.2)]
          cases rest with
          | nil => rfl
          | cons d tail =>
              exact List.dropWhile_cons_of_neg
                (by simpa using hNext)
        rw [fold, List.cons_append,
          foldFrom_cons_of_pos _ hRun.1, hDrop, ← fold, ih]
  · rintro rfl
    exact folds_fold p s

end Text

end WebTidy
