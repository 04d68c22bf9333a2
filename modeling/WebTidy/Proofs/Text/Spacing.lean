import Mathlib.Data.List.Chain
import WebTidy.Proofs.Text

/-
  Texts with as few spaces as possible.

  Spaces that divide two visible characters are written as
  one space, or not at all if the two stand tight.  What is
  written for a text can be cut at any visible character,
  in front of which the spaces before it are all that is
  looked at.  Passes that drop spaces from a folded text are
  compared with this one form.

  Key definitions include:
    * `WebTidy.Text.visible`
    * `WebTidy.Text.condense`
    * `WebTidy.Text.gap`
    * `WebTidy.Text.IsPass`

  Key theorems include:
    * `WebTidy.Text.visible_condense`
    * `WebTidy.Text.exists_condense_cut`
    * `WebTidy.Text.exists_of_condense`
    * `WebTidy.Text.condense_condense`
    * `WebTidy.Text.IsPass.trim_eq`
-/

------------------------------------------------------------
-- Visible Characters
------------------------------------------------------------

namespace WebTidy

namespace Text

/- The characters of a text but its spaces. -/
def visible
    (t : Text) :
    Text :=
  t.filter (!isSpace ·)

/- A space is not seen. -/
theorem visible_cons_space
    {c : Char}
    (t : Text)
    (hc : isSpace c = true) :
    visible (c :: t) = visible t := by
  simp [visible, hc]

/- Every other character is. -/
theorem visible_cons
    {c : Char}
    (t : Text)
    (hc : isSpace c = false) :
    visible (c :: t) = c :: visible t := by
  simp [visible, hc]

/- The visible characters of two texts. -/
theorem visible_append
    (s t : Text) :
    visible (s ++ t) = visible s ++ visible t := by
  exact List.filter_append _ _

/- A text shows nothing if it has spaces only. -/
theorem visible_eq_nil_iff
    {t : Text} :
    visible t = [] ↔ t.all isSpace = true := by
  simp [visible, List.filter_eq_nil_iff]

end Text

end WebTidy

------------------------------------------------------------
-- Condensed Texts
------------------------------------------------------------

namespace WebTidy

namespace Text

variable {tight : Char → Char → Bool}

/-
  A text with a single space where spaces divide characters
  that do not stand tight.  The other arguments are the last
  character written and whether spaces were read behind it.
-/
def condense
    (tight : Char → Char → Bool) :
    Option Char → Bool → Text → Text
| _, _, [] => []
| last, spaced, c :: rest =>
    if isSpace c then condense tight last true rest
    else if spaced ∧ last.any (!tight · c) then
      ' ' :: c :: condense tight (some c) false rest
    else c :: condense tight (some c) false rest

/- What a visible character is written behind. -/
def gap
    (tight : Char → Char → Bool)
    (last : Option Char)
    (spaced : Bool)
    (c : Char) :
    Text :=
  if spaced ∧ last.any (!tight · c) then [' '] else []

/- Nothing is written for a space. -/
theorem condense_space
    {c : Char}
    (tight : Char → Char → Bool)
    (last : Option Char)
    (spaced : Bool)
    (rest : Text)
    (hc : isSpace c = true) :
    condense tight last spaced (c :: rest) =
      condense tight last true rest := by
  rw [condense, if_pos hc]

/- A visible character is written behind its gap. -/
theorem condense_visible
    {c : Char}
    (tight : Char → Char → Bool)
    (last : Option Char)
    (spaced : Bool)
    (rest : Text)
    (hc : isSpace c = false) :
    condense tight last spaced (c :: rest) =
      gap tight last spaced c ++
        c :: condense tight (some c) false rest := by
  rw [condense, if_neg (by simp [hc]), gap]
  split <;> rfl

/- A gap is one space at most. -/
theorem gap_cases
    (tight : Char → Char → Bool)
    (last : Option Char)
    (spaced : Bool)
    (c : Char) :
    gap tight last spaced c = [] ∨
      gap tight last spaced c = [' '] := by
  unfold gap
  split
  · exact Or.inr rfl
  · exact Or.inl rfl

/- There is none where no space was read. -/
@[simp] theorem gap_false
    (tight : Char → Char → Bool)
    (last : Option Char)
    (c : Char) :
    gap tight last false c = [] := by
  simp [gap]

/- There is none at the start. -/
@[simp] theorem gap_none
    (tight : Char → Char → Bool)
    (spaced : Bool)
    (c : Char) :
    gap tight none spaced c = [] := by
  simp [gap]

/- A gap is not seen. -/
@[simp] theorem visible_gap
    (tight : Char → Char → Bool)
    (last : Option Char)
    (spaced : Bool)
    (c : Char) :
    visible (gap tight last spaced c) = [] := by
  rcases gap_cases tight last spaced c with hGap | hGap
  · rw [hGap]
    rfl
  · rw [hGap, visible_eq_nil_iff]
    decide

/- More spaces are only seen as spaces. -/
theorem condense_spaces
    (tight : Char → Char → Bool)
    (last : Option Char)
    (spaced : Bool)
    {spaces : Text}
    (rest : Text)
    (hSpaces : spaces.all isSpace = true) :
    condense tight last spaced (spaces ++ rest) =
      condense tight last (spaced || !spaces.isEmpty) rest := by
  induction spaces generalizing spaced with
  | nil => simp
  | cons c more ih =>
      simp only [List.all_cons, Bool.and_eq_true] at hSpaces
      rw [List.cons_append, condense_space _ _ _ _ hSpaces.1,
        ih true hSpaces.2]
      simp

/- Spaces at the end are dropped. -/
theorem condense_append_spaces
    (tight : Char → Char → Bool)
    (last : Option Char)
    (spaced : Bool)
    (t : Text)
    {spaces : Text}
    (hSpaces : spaces.all isSpace = true) :
    condense tight last spaced (t ++ spaces) =
      condense tight last spaced t := by
  induction t generalizing last spaced with
  | nil =>
      have hNil :=
        condense_spaces tight last spaced [] hSpaces
      rw [List.append_nil] at hNil
      rw [List.nil_append, hNil]
      rfl
  | cons c rest ih =>
      rw [List.cons_append]
      cases hc : isSpace c with
      | true =>
          rw [condense_space _ _ _ _ hc,
            condense_space _ _ _ _ hc, ih]
      | false =>
          rw [condense_visible _ _ _ _ hc,
            condense_visible _ _ _ _ hc, ih]

/- Nothing is written for spaces alone. -/
theorem condense_eq_nil
    (tight : Char → Char → Bool)
    (last : Option Char)
    {spaces : Text}
    (hSpaces : spaces.all isSpace = true) :
    condense tight last false spaces = [] := by
  have hDrop :=
    condense_append_spaces tight last false [] hSpaces
  rwa [List.nil_append] at hDrop

/- At the start no space is written. -/
theorem condense_none
    (spaced : Bool)
    (t : Text) :
    condense tight none spaced t =
      condense tight none false t := by
  cases t with
  | nil => rfl
  | cons c rest =>
      cases hc : isSpace c with
      | true =>
          rw [condense_space _ _ _ _ hc,
            condense_space _ _ _ _ hc]
      | false =>
          rw [condense_visible _ _ _ _ hc,
            condense_visible _ _ _ _ hc, gap_none, gap_none]

/- The spaces in front of the next visible character. -/
theorem condense_spaces_cons
    (p : Char)
    {spaces : Text}
    {c : Char}
    (rest : Text)
    (hSpaces : spaces.all isSpace = true)
    (hc : isSpace c = false) :
    condense tight (some p) false (spaces ++ c :: rest) =
      (if spaces = [] ∨ tight p c = true then [] else [' ']) ++
        c :: condense tight (some c) false rest := by
  rw [condense_spaces _ _ _ _ hSpaces,
    condense_visible _ _ _ _ hc]
  cases spaces with
  | nil => simp
  | cons d more =>
      cases hTight : tight p c <;> simp [gap, hTight]

/- A condensed text has no space at its start. -/
theorem head?_condense
    (t : Text) :
    (condense tight none false t).head?.all (!isSpace ·) =
      true := by
  induction t with
  | nil => rfl
  | cons c rest ih =>
      cases hc : isSpace c with
      | true =>
          rw [condense_space _ _ _ _ hc, condense_none]
          exact ih
      | false =>
          rw [condense_visible _ _ _ _ hc, gap_none]
          simp [hc]

/- Nor has it one at its end. -/
theorem getLast?_condense
    (last : Option Char)
    (spaced : Bool)
    (t : Text) :
    (condense tight last spaced t).getLast?.all (!isSpace ·) =
      true := by
  induction t generalizing last spaced with
  | nil => rfl
  | cons c rest ih =>
      cases hc : isSpace c with
      | true =>
          rw [condense_space _ _ _ _ hc]
          exact ih last true
      | false =>
          have hRest := ih (some c) false
          rw [condense_visible _ _ _ _ hc, List.getLast?_append,
            List.getLast?_cons, Option.some_or]
          cases hEnd :
              (condense tight (some c) false rest).getLast? with
          | none => simp [hc]
          | some d =>
              rw [hEnd] at hRest
              exact hRest

/- Its spaces are plain. -/
theorem eq_space_of_mem_condense
    {last : Option Char}
    {spaced : Bool}
    {t : Text}
    {c : Char}
    (hc : c ∈ condense tight last spaced t)
    (hSpace : isSpace c = true) :
    c = ' ' := by
  induction t generalizing last spaced with
  | nil => cases hc
  | cons d rest ih =>
      cases hd : isSpace d with
      | true =>
          rw [condense_space _ _ _ _ hd] at hc
          exact ih hc
      | false =>
          rw [condense_visible _ _ _ _ hd, List.mem_append,
            List.mem_cons] at hc
          rcases hc with hGap | rfl | hRest
          · rcases gap_cases tight last spaced d with hNo | hOne
            · rw [hNo] at hGap
              cases hGap
            · rw [hOne] at hGap
              exact List.mem_singleton.mp hGap
          · rw [hd] at hSpace
            cases hSpace
          · exact ih hRest

/- Its spaces stand alone. -/
theorem isChain_condense
    (last : Option Char)
    (spaced : Bool)
    (t : Text) :
    (condense tight last spaced t).IsChain fun a b =>
      isSpace a = true → isSpace b = false := by
  induction t generalizing last spaced with
  | nil => exact .nil
  | cons c rest ih =>
      cases hc : isSpace c with
      | true =>
          rw [condense_space _ _ _ _ hc]
          exact ih last true
      | false =>
          have hSeen : ¬ isSpace c = true := by simp [hc]
          have hChar :
              (c :: condense tight (some c) false rest).IsChain
                fun a b =>
                  isSpace a = true → isSpace b = false :=
            (ih (some c) false).cons fun d _ hSpace =>
              absurd hSpace hSeen
          rw [condense_visible _ _ _ _ hc]
          rcases gap_cases tight last spaced c with hGap | hGap
          · rw [hGap]
            exact hChar
          · rw [hGap]
            exact .cons_cons (fun _ => hc) hChar

/- A text and its condensed form show the same. -/
theorem visible_condense
    (last : Option Char)
    (spaced : Bool)
    (t : Text) :
    visible (condense tight last spaced t) = visible t := by
  induction t generalizing last spaced with
  | nil => rfl
  | cons c rest ih =>
      cases hc : isSpace c with
      | true =>
          rw [condense_space _ _ _ _ hc, ih,
            visible_cons_space rest hc]
      | false =>
          rw [condense_visible _ _ _ _ hc, visible_append,
            visible_gap, List.nil_append, visible_cons _ hc,
            visible_cons _ hc, ih]

/- A condensed text stays as it is. -/
theorem condense_condense
    (last : Option Char)
    (spaced : Bool)
    (t : Text) :
    condense tight last false (condense tight last spaced t) =
      condense tight last spaced t := by
  have hSpace : isSpace ' ' = true := by decide
  induction t generalizing last spaced with
  | nil => rfl
  | cons c rest ih =>
      cases hc : isSpace c with
      | true =>
          rw [condense_space _ _ _ _ hc]
          exact ih last true
      | false =>
          rw [condense_visible _ _ _ _ hc]
          by_cases hKeep : spaced = true ∧ last.any (!tight · c)
          · have hGap (before : Bool) (hBefore : before = true) :
                gap tight last before c = [' '] :=
              if_pos ⟨hBefore, hKeep.2⟩
            rw [hGap _ hKeep.1, List.singleton_append,
              condense_space _ _ _ _ hSpace,
              condense_visible _ _ _ _ hc, hGap _ rfl, ih]
            rfl
          · have hGap : gap tight last spaced c = [] :=
              if_neg hKeep
            rw [hGap, List.nil_append,
              condense_visible _ _ _ _ hc, gap_false, ih]
            rfl

end Text

end WebTidy

------------------------------------------------------------
-- Cuts
------------------------------------------------------------

namespace WebTidy

namespace Text

variable {tight : Char → Char → Bool}

/- A condensed text is cut at its visible characters. -/
theorem exists_condense_cut
    (tight : Char → Char → Bool)
    (last : Option Char)
    (spaced : Bool)
    (front : Text)
    {c : Char}
    (back : Text)
    (hc : isSpace c = false) :
    ∃ before,
      condense tight last spaced (front ++ c :: back) =
        before ++ c :: condense tight (some c) false back ∧
      visible before = visible front := by
  induction front generalizing last spaced with
  | nil =>
      refine ⟨gap tight last spaced c, ?_, ?_⟩
      · exact condense_visible _ _ _ _ hc
      · exact visible_gap tight last spaced c
  | cons d rest ih =>
      rw [List.cons_append]
      cases hd : isSpace d with
      | true =>
          rcases ih last true with ⟨before, hCut, hSame⟩
          refine ⟨before, ?_, ?_⟩
          · rw [condense_space _ _ _ _ hd, hCut]
          · rw [hSame, visible_cons_space rest hd]
      | false =>
          rcases ih (some d) false with ⟨before, hCut, hSame⟩
          refine ⟨gap tight last spaced d ++ d :: before, ?_, ?_⟩
          · rw [condense_visible _ _ _ _ hd, hCut,
              List.append_assoc]
            rfl
          · rw [visible_append, visible_gap, List.nil_append,
              visible_cons _ hd, visible_cons _ hd, hSame]

/- Its cuts come from the text. -/
theorem exists_of_condense
    {last : Option Char}
    {spaced : Bool}
    {t before behind : Text}
    {c : Char}
    (hc : isSpace c = false)
    (h : condense tight last spaced t = before ++ c :: behind) :
    ∃ front back,
      t = front ++ c :: back ∧
      behind = condense tight (some c) false back ∧
      visible before = visible front := by
  induction t generalizing last spaced before with
  | nil =>
      have hNil : ([] : Text) = before ++ c :: behind := h
      simp at hNil
  | cons d rest ih =>
      cases hd : isSpace d with
      | true =>
          rw [condense_space _ _ _ _ hd] at h
          rcases ih h with ⟨front, back, rfl, hBack, hSame⟩
          refine ⟨d :: front, back, rfl, hBack, ?_⟩
          rw [hSame, visible_cons_space front hd]
      | false =>
          -- behind the gap
          have hWritten {after : Text}
              (hWrite :
                d :: condense tight (some d) false rest =
                  after ++ c :: behind) :
              ∃ front back,
                d :: rest = front ++ c :: back ∧
                behind = condense tight (some c) false back ∧
                visible after = visible front := by
            cases after with
            | nil =>
                rcases List.cons.inj hWrite with ⟨rfl, hBehind⟩
                exact ⟨[], rest, rfl, hBehind.symm, rfl⟩
            | cons e after =>
                rcases List.cons.inj hWrite with ⟨rfl, hMore⟩
                rcases ih hMore with
                  ⟨front, back, rfl, hBack, hSame⟩
                refine ⟨d :: front, back, rfl, hBack, ?_⟩
                rw [visible_cons _ hd, visible_cons _ hd, hSame]
          rw [condense_visible _ _ _ _ hd] at h
          rcases gap_cases tight last spaced d with hGap | hGap
          · rw [hGap] at h
            exact hWritten h
          · rw [hGap] at h
            cases before with
            | nil =>
                rw [← (List.cons.inj h).1] at hc
                exact absurd hc (by decide)
            | cons e before =>
                rcases List.cons.inj h with ⟨rfl, hWrite⟩
                rw [visible_cons_space before (by decide)]
                exact hWritten hWrite

/- A word behind a character is written as it is. -/
theorem condense_word
    (tight : Char → Char → Bool)
    (last : Option Char)
    {w : Text}
    (back : Text)
    (hSeen : w.all (!isSpace ·) = true) :
    ∃ next,
      condense tight last false (w ++ back) =
        w ++ condense tight next false back := by
  induction w generalizing last with
  | nil => exact ⟨last, rfl⟩
  | cons c w ih =>
      simp only [List.all_cons, Bool.and_eq_true,
        Bool.not_eq_true'] at hSeen
      rcases ih (some c) hSeen.2 with ⟨next, hWord⟩
      refine ⟨next, ?_⟩
      rw [List.cons_append, condense_visible _ _ _ _ hSeen.1,
        gap_false, hWord]
      rfl

/- So is every word of a text. -/
theorem exists_condense_word
    (tight : Char → Char → Bool)
    (last : Option Char)
    (spaced : Bool)
    (front : Text)
    {w : Text}
    (back : Text)
    (hSome : w ≠ [])
    (hSeen : w.all (!isSpace ·) = true) :
    ∃ before next,
      condense tight last spaced (front ++ (w ++ back)) =
        before ++ (w ++ condense tight next false back) := by
  rcases List.exists_cons_of_ne_nil hSome with ⟨c, w, rfl⟩
  simp only [List.all_cons, Bool.and_eq_true,
    Bool.not_eq_true'] at hSeen
  rcases exists_condense_cut tight last spaced front
    (w ++ back) hSeen.1 with ⟨before, hCut, _⟩
  rcases condense_word tight (some c) back hSeen.2
    with ⟨next, hWord⟩
  refine ⟨before, next, ?_⟩
  rw [List.cons_append, hCut, hWord]
  rfl

/- A word behind a character comes from the text. -/
theorem exists_of_condense_prefix
    {p : Char}
    {w t behind : Text}
    (hSeen : w.all (!isSpace ·) = true)
    (hChain : (p :: w).IsChain fun a b => tight a b = false)
    (h : condense tight (some p) false t = w ++ behind) :
    ∃ next back,
      t = w ++ back ∧
      behind = condense tight next false back := by
  induction w generalizing p t with
  | nil => exact ⟨some p, t, rfl, h.symm⟩
  | cons c w ih =>
      simp only [List.all_cons, Bool.and_eq_true,
        Bool.not_eq_true'] at hSeen
      rw [List.isChain_cons_cons] at hChain
      rcases all_or_exists isSpace t with
        hSpaces | ⟨spaces, d, more, rfl, hSpaces, hd⟩
      · rw [condense_eq_nil tight _ hSpaces] at h
        cases h
      · rw [condense_spaces_cons p more hSpaces hd] at h
        split at h
        · rename_i hGap
          rcases List.cons.inj h with ⟨rfl, hMore⟩
          rw [hChain.1] at hGap
          rcases ih hSeen.2 hChain.2 hMore with
            ⟨next, back, rfl, hBack⟩
          refine ⟨next, back, ?_, hBack⟩
          rw [hGap.resolve_right Bool.false_ne_true]
          rfl
        · rw [(List.cons.inj h).1.symm] at hSeen
          exact absurd hSeen.1 (by decide)

/- So does every word without a place where spaces go. -/
theorem exists_of_condense_word
    {last : Option Char}
    {spaced : Bool}
    {t before w behind : Text}
    (hSome : w ≠ [])
    (hSeen : w.all (!isSpace ·) = true)
    (hChain : w.IsChain fun a b => tight a b = false)
    (h :
      condense tight last spaced t = before ++ (w ++ behind)) :
    ∃ front next back,
      t = front ++ (w ++ back) ∧
      behind = condense tight next false back := by
  rcases List.exists_cons_of_ne_nil hSome with ⟨c, w, rfl⟩
  simp only [List.all_cons, Bool.and_eq_true,
    Bool.not_eq_true'] at hSeen
  rcases exists_of_condense hSeen.1 h with
    ⟨front, more, rfl, hMore, _⟩
  rcases exists_of_condense_prefix hSeen.2 hChain hMore.symm with
    ⟨next, back, rfl, hBack⟩
  exact ⟨front, next, back, rfl, hBack⟩

/- Where spaces are left, two characters do not stand tight. -/
theorem exists_of_space
    {last : Option Char}
    {spaced : Bool}
    {t before behind : Text}
    {c : Char}
    (hc : isSpace c = false)
    (h :
      condense tight last spaced t =
        before ++ c :: ' ' :: behind) :
    ∃ d more,
      behind = d :: more ∧ isSpace d = false ∧
        tight c d = false := by
  rcases exists_of_condense hc h with ⟨front, back, rfl, hBack, _⟩
  rcases all_or_exists isSpace back with
    hSpaces | ⟨spaces, d, more, rfl, hSpaces, hd⟩
  · rw [condense_eq_nil tight _ hSpaces] at hBack
    cases hBack
  · rw [condense_spaces_cons c more hSpaces hd] at hBack
    split at hBack
    · rw [(List.cons.inj hBack).1.symm] at hd
      exact absurd hd (by decide)
    · rename_i hGap
      rw [not_or, Bool.not_eq_true] at hGap
      exact ⟨d, _, (List.cons.inj hBack).2, hd, hGap.2⟩

end Text

end WebTidy

------------------------------------------------------------
-- Passes
------------------------------------------------------------

namespace WebTidy

namespace Text

variable {tight : Char → Char → Bool}

/-
  A pass over a folded text, behind a character.  It drops
  a space between characters that stand tight, and at the
  end it may leave one.
-/
structure IsPass
    (tight : Char → Char → Bool)
    (pass : Char → Text → Text) :
    Prop where
  nil : ∀ p, pass p [] = []
  tail : ∀ p, (pass p [' ']).all isSpace = true
  char :
    ∀ p c rest,
      isSpace c = false → pass p (c :: rest) = c :: pass c rest
  space :
    ∀ p c rest,
      isSpace c = false →
        pass p (' ' :: c :: rest) =
          (if tight p c then [] else [' ']) ++ c :: pass c rest

variable {pass : Char → Text → Text}

/- Such a pass condenses the text that was folded. -/
theorem IsPass.exists_fold
    (h : IsPass tight pass)
    (p : Char)
    (t : Text) :
    ∃ tail : Text,
      tail.all isSpace = true ∧
        pass p (t.fold isSpace) =
          condense tight (some p) false t ++ tail := by
  unfold fold
  -- Each step takes one character and the spaces before it,
  -- so the induction is on the length.
  induction hLength : t.length using Nat.strong_induction_on
    generalizing p t with
  | _ n ih =>
      rcases all_or_exists isSpace t with
        hSpaces | ⟨spaces, d, more, rfl, hSpaces, hd⟩
      · rw [condense_eq_nil tight _ hSpaces]
        cases t with
        | nil => exact ⟨[], rfl, h.nil p⟩
        | cons c rest =>
            simp only [List.all_cons, Bool.and_eq_true]
              at hSpaces
            have hRest : rest.dropWhile isSpace = [] :=
              List.dropWhile_eq_nil_iff.mpr
                (List.all_eq_true.mp hSpaces.2)
            rw [foldFrom_cons_of_pos _ hSpaces.1, hRest]
            exact ⟨pass p [' '], h.tail p, rfl⟩
      · have hShort : more.length < n := by
          rw [← hLength, List.length_append, List.length_cons]
          omega
        rcases ih more.length hShort d more rfl with
          ⟨tail, hTail, hMore⟩
        refine ⟨tail, hTail, ?_⟩
        rw [condense_spaces_cons p more hSpaces hd]
        cases spaces with
        | nil =>
            rw [List.nil_append, foldFrom_cons_of_neg _ _ hd,
              h.char p d _ hd, hMore]
            simp
        | cons c blanks =>
            simp only [List.all_cons, Bool.and_eq_true]
              at hSpaces
            rw [List.cons_append,
              foldFrom_cons_of_pos _ hSpaces.1,
              dropWhile_append_cons _ hSpaces.2 hd,
              foldFrom_cons_of_neg _ _ hd, h.space p d _ hd,
              hMore]
            simp

/- Behind a character there may be one space in front. -/
theorem exists_condense_some
    (tight : Char → Char → Bool)
    (p : Char)
    (t : Text) :
    ∃ lead : Text,
      lead.all isSpace = true ∧
        condense tight (some p) false t =
          lead ++ condense tight none false t := by
  rcases all_or_exists isSpace t with
    hSpaces | ⟨spaces, d, more, rfl, hSpaces, hd⟩
  · rw [condense_eq_nil tight _ hSpaces,
      condense_eq_nil tight _ hSpaces]
    exact ⟨[], rfl, rfl⟩
  · rw [condense_spaces_cons p more hSpaces hd,
      condense_spaces _ _ _ _ hSpaces, condense_none,
      condense_visible _ _ _ _ hd, gap_none]
    split
    · exact ⟨[], rfl, rfl⟩
    · exact ⟨[' '], by decide, rfl⟩

/- So a pass leaves spaces at the ends at most. -/
theorem IsPass.exists_start
    (h : IsPass tight pass)
    (p : Char)
    (t : Text) :
    ∃ lead tail : Text,
      lead.all isSpace = true ∧ tail.all isSpace = true ∧
        pass p (t.fold isSpace) =
          lead ++ condense tight none false t ++ tail := by
  rcases h.exists_fold p t with ⟨tail, hTail, hPass⟩
  rcases exists_condense_some tight p t with
    ⟨lead, hLead, hSome⟩
  exact ⟨lead, tail, hLead, hTail, by rw [hPass, hSome]⟩

/- Without them, what it writes is the condensed text. -/
theorem IsPass.trim_eq
    (h : IsPass tight pass)
    (p : Char)
    (t : Text) :
    (pass p (t.fold isSpace)).trim isSpace =
      condense tight none false t := by
  rcases h.exists_start p t with ⟨lead, tail, hLead, hTail, hPass⟩
  rw [hPass]
  exact trim_append hLead hTail (head?_condense t)
    (getLast?_condense none false t)

end Text

end WebTidy
