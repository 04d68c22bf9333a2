import WebTidy.Proofs.Markup.Partition

/-
  What a tag is, before and after its normal form.

  The layout reads a tag as it stands in the document, and
  it writes the normal form of the tag.  Both are the same
  kind of tag, with two exceptions: a slash, an exclamation
  mark or a question mark behind blanks is not read, and the
  normal form moves it to the opening bracket; and a slash
  before blanks at the end is not read, and the normal form
  moves it to the closing bracket.

  Key definitions include:
    * `WebTidy.Markup.Tag.inside`
    * `WebTidy.Markup.Tag.Kind`
    * `WebTidy.Markup.Tag.hidesMark`
    * `WebTidy.Markup.Tag.hidesSlash`
    * `WebTidy.Markup.Tag.isCut`

  Key theorems include:
    * `WebTidy.Markup.Tag.kind_trim_normalInside`
    * `WebTidy.Markup.Tag.getLast?_trim_normalInside`
    * `WebTidy.Markup.Tag.isCut_eq_false`
    * `WebTidy.Markup.exists_heads_of_mem_scan`
-/

------------------------------------------------------------
-- The Inside Of A Tag
------------------------------------------------------------

namespace WebTidy

namespace Markup

namespace Tag

/- What stands between the brackets of a tag. -/
def inside
    (tag : Text) :
    Text :=
  let inner := tag.drop 1
  if inner.getLast? = some '>' then inner.dropLast else inner

/- The closing bracket of a tag, if it has one. -/
def bracket
    (tag : Text) :
    Text :=
  if (tag.drop 1).getLast? = some '>' then ['>'] else []

/- The normal form of the inside, before it is trimmed. -/
def normalInside
    (inner : Text) :
    Text :=
  (pieces inner).flatMap
    (Piece.normal (CharRef.decode .attribute))

/- A tag is its inside between its brackets. -/
theorem cons_inside_append_bracket
    (rest : Text) :
    '<' :: (inside ('<' :: rest) ++ bracket ('<' :: rest)) =
      '<' :: rest := by
  unfold inside bracket
  simp only [List.drop_succ_cons, List.drop_zero]
  split
  · rename_i hLast
    rw [List.dropLast_append_getLast? _ hLast]
  · rw [List.append_nil]

/- A tag is closed by a bracket, or its inside by another. -/
theorem bracket_cases
    (tag : Text) :
    bracket tag = ['>'] ∨
      bracket tag = [] ∧
        (inside tag).getLast? ≠ some '>' := by
  unfold bracket inside
  split
  · exact Or.inl rfl
  · rename_i hOpen
    refine Or.inr ⟨rfl, ?_⟩
    simpa only [if_neg hOpen] using hOpen

/- The normal form is that of the inside, trimmed. -/
theorem normalize_cons
    (rest : Text) :
    normalize ('<' :: rest) =
      '<' ::
        ((normalInside (inside ('<' :: rest))).trim (· = ' ')
          ++ bracket ('<' :: rest)) := by
  cases rest with
  | nil => decide +kernel
  | cons c rest => rfl

end Tag

end Markup

end WebTidy

------------------------------------------------------------
-- Kinds
------------------------------------------------------------

namespace WebTidy

namespace Markup

namespace Tag

/- What a tag is, apart from a slash at its end. -/
structure Kind where
  name : Text
  isEnd : Bool
  isDeclaration : Bool
  isDoctype : Bool
deriving DecidableEq, Repr

/- The name behind blanks. -/
def nameOf
    (s : Text) :
    Text :=
  (s.dropWhile isBlank).takeWhile isNameChar

/- The kind of a tag by what follows its opening bracket. -/
def kind :
    Text → Kind
| [] => ⟨[], false, false, false⟩
| c :: rest =>
    { name := nameOf (if c = '/' then rest else c :: rest)
      isEnd := c = '/'
      isDeclaration := c = '!' ∨ c = '?'
      isDoctype :=
        Text.beginsWith "!doctype".toList (c :: rest) }

/- The kind of a tag is what the layout reads. -/
theorem kind_eq
    (tag s : Text) :
    kind s =
      { name := (Head.read tag s).name
        isEnd := (Head.read tag s).isEnd
        isDeclaration := isDeclaration ('<' :: s)
        isDoctype := isDoctype ('<' :: s) } := by
  cases s with
  | nil => rfl
  | cons c rest =>
      have hDoctype :
          isDoctype ('<' :: c :: rest) =
            Text.beginsWith "!doctype".toList (c :: rest) :=
        (Text.beginsWith_cons '<' '<' _ _).trans
          (Bool.true_and _)
      rw [hDoctype]
      simp [kind, Head.read, nameOf, isDeclaration,
        List.cons_prefix_cons, eq_comm]

/- A quote or a bracket. -/
def isStop
    (c : Char) :
    Bool :=
  isQuote c ∨ c = '>'

/- Blanks, then a quote, a bracket or nothing. -/
def EndsWord
    (s : Text) :
    Prop :=
  (s.dropWhile isBlank).head?.all isStop = true

/- A word ends with the text, or at a blank or a stop. -/
theorem EndsWord.cases
    {s : Text}
    (h : EndsWord s) :
    s = [] ∨
      ∃ c rest, s = c :: rest ∧
        (isBlank c = true ∨ isStop c = true) := by
  cases s with
  | nil => exact Or.inl rfl
  | cons c rest =>
      refine Or.inr ⟨c, rest, rfl, ?_⟩
      cases hc : isBlank c with
      | true => exact Or.inl rfl
      | false =>
          rw [EndsWord, List.dropWhile_cons_of_neg (by simp [hc])]
            at h
          exact Or.inr h

/- Neither blanks nor stops are part of a name or a mark. -/
theorem of_isBlank_or_isStop
    {c : Char}
    (h : isBlank c = true ∨ isStop c = true) :
    isNameChar c = false ∧
      c ≠ '/' ∧ c ≠ '!' ∧ c ≠ '?' ∧
      "!doctype".toList.all (c.toLower ≠ ·.toLower) =
        true := by
  simp only [isBlank, isStop, isQuote, decide_eq_true_eq] at h
  rcases h with
    (rfl | rfl | rfl | rfl | rfl) | (rfl | rfl) | rfl <;>
    decide

/- No name begins where a word ends. -/
theorem EndsWord.names
    {s : Text}
    (h : EndsWord s) :
    s.takeWhile isNameChar = [] ∧ nameOf s = [] := by
  have hNo (t : Text)
      (ht : t = [] ∨
        ∃ c rest, t = c :: rest ∧
          (isBlank c = true ∨ isStop c = true)) :
      t.takeWhile isNameChar = [] := by
    rcases ht with rfl | ⟨c, rest, rfl, hc⟩
    · rfl
    · rw [List.takeWhile_cons_of_neg]
      simp [(of_isBlank_or_isStop hc).1]
  refine ⟨hNo s h.cases, hNo _ ?_⟩
  cases hDrop : s.dropWhile isBlank with
  | nil => exact Or.inl rfl
  | cons c rest =>
      refine Or.inr ⟨c, rest, rfl, Or.inr ?_⟩
      rw [EndsWord, hDrop] at h
      exact h

/- A name in front of the end of a word. -/
theorem nameOf_append
    (s : Text)
    {t : Text}
    (h : EndsWord t) :
    nameOf (s ++ t) = nameOf s := by
  have hTake (u : Text) :
      (u ++ t).takeWhile isNameChar =
        u.takeWhile isNameChar := by
    induction u with
    | nil => exact h.names.1
    | cons c rest ih =>
        rw [List.cons_append, List.takeWhile_cons,
          List.takeWhile_cons, ih]
  unfold nameOf
  induction s with
  | nil => exact h.names.2
  | cons c rest ih =>
      cases hc : isBlank c with
      | true =>
          rw [List.cons_append,
            List.dropWhile_cons_of_pos hc,
            List.dropWhile_cons_of_pos hc, ih]
      | false =>
          rw [List.cons_append,
            List.dropWhile_cons_of_neg (by simp [hc]),
            List.dropWhile_cons_of_neg (by simp [hc])]
          exact hTake (c :: rest)

/- A mark does not reach beyond the end of a word. -/
theorem beginsWith_append
    (mark : Text)
    (hMark : ∀ m ∈ mark, m ∈ "!doctype".toList)
    (s : Text)
    {t : Text}
    (h : EndsWord t) :
    Text.beginsWith mark (s ++ t) =
      Text.beginsWith mark s := by
  induction mark generalizing s with
  | nil => simp [Text.beginsWith]
  | cons m mark ih =>
      cases s with
      | nil =>
          rcases h.cases with rfl | ⟨c, rest, rfl, hc⟩
          · rfl
          · have hNe :=
              List.all_eq_true.mp
                (of_isBlank_or_isStop hc).2.2.2.2 m
                (hMark m (by simp))
            rw [List.nil_append, Text.beginsWith_cons,
              decide_eq_false (of_decide_eq_true hNe), Bool.false_and]
            rfl
      | cons c rest =>
          rw [List.cons_append, Text.beginsWith_cons,
            Text.beginsWith_cons,
            ih fun other hOther => hMark other (by simp [hOther])]

/- The kind of a tag without a mark and without a name. -/
theorem EndsWord.kind_eq
    {s : Text}
    (h : EndsWord s) :
    kind s = kind [] := by
  have hDoctype :=
    beginsWith_append "!doctype".toList
      (fun _ => id) [] h
  rcases h.cases with rfl | ⟨c, rest, rfl, hc⟩
  · rfl
  · have hNe := of_isBlank_or_isStop hc
    rw [List.nil_append] at hDoctype
    change Kind.mk _ _ _ _ = Kind.mk [] false false false
    rw [hDoctype, if_neg hNe.2.1, h.names.2]
    simp [hNe]
    decide

/- The kind of a tag is read up to the end of a word. -/
theorem kind_append
    (s : Text)
    {t : Text}
    (h : EndsWord t) :
    kind (s ++ t) = kind s := by
  cases s with
  | nil => exact h.kind_eq
  | cons c rest =>
      have hDoctype :=
        beginsWith_append "!doctype".toList
          (fun _ => id) (c :: rest) h
      have hWhole := nameOf_append (c :: rest) h
      have hRest := nameOf_append rest h
      rw [List.cons_append] at *
      rw [kind, kind, hDoctype]
      split
      · rw [hRest]
      · rw [hWhole]

end Tag

end Markup

end WebTidy

------------------------------------------------------------
-- The Start Of The Normal Form
------------------------------------------------------------

namespace WebTidy

namespace Text

/- The blanks at the start of a folded text. -/
theorem dropWhile_fold
    {p : Char → Bool}
    (hSpace : p ' ' = true)
    (hBlank : ∀ c, p c = true → isBlank c = true)
    (s : Text) :
    (s.fold isBlank).dropWhile p =
      fold isBlank (s.dropWhile isBlank) := by
  have hStay (c : Char)
      (rest : Text)
      (hc : ¬ isBlank c = true) :
      (c :: rest).dropWhile p = c :: rest :=
    List.dropWhile_cons_of_neg fun h => hc (hBlank c h)
  have hRun (t : Text) :
      (foldFrom isBlank true t).dropWhile p =
        foldFrom isBlank true t := by
    induction t with
    | nil => rfl
    | cons c rest ih =>
        rw [foldFrom]
        split
        · exact ih
        · rename_i hc
          exact hStay c _ hc
  cases s with
  | nil => rfl
  | cons c rest =>
      unfold fold
      rw [foldFrom]
      split
      · rename_i hc
        rw [if_neg (by simp), List.dropWhile_cons_of_pos hSpace,
          List.dropWhile_cons_of_pos hc, hRun, foldFrom_true]
      · rename_i hc
        rw [hStay c _ hc, List.dropWhile_cons_of_neg hc,
          foldFrom, if_neg hc]

end Text

namespace Markup

namespace Tag

/- Folding keeps the words at the start of a text. -/
theorem takeWhile_fold
    (s : Text) :
    (s.fold isBlank).takeWhile isNameChar =
      s.takeWhile isNameChar := by
  unfold Text.fold
  induction s with
  | nil => rfl
  | cons c rest ih =>
      rw [Text.foldFrom]
      split
      · rename_i hc
        have hName := (of_isBlank_or_isStop (Or.inl hc)).1
        rw [if_neg (by simp), List.takeWhile_cons_of_neg,
          List.takeWhile_cons_of_neg]
        · simp [hName]
        · decide
      · rw [List.takeWhile_cons, List.takeWhile_cons, ih]

/- Folding keeps the marks at the start of a text. -/
theorem beginsWith_fold
    (mark : Text)
    (hMark : ∀ m ∈ mark, m ∈ "!doctype".toList)
    (s : Text) :
    Text.beginsWith mark (s.fold isBlank) =
      Text.beginsWith mark s := by
  unfold Text.fold
  induction mark generalizing s with
  | nil => simp [Text.beginsWith]
  | cons m mark ih =>
      have hNe {c : Char} (hc : isBlank c = true) :
          ¬ c.toLower = m.toLower :=
        of_decide_eq_true
          (List.all_eq_true.mp
            (of_isBlank_or_isStop (Or.inl hc)).2.2.2.2 m
            (hMark m (by simp)))
      cases s with
      | nil => rfl
      | cons c rest =>
          rw [Text.foldFrom]
          split
          · rename_i hc
            rw [if_neg (by simp), Text.beginsWith_cons,
              Text.beginsWith_cons, decide_eq_false (hNe hc),
              decide_eq_false (hNe rfl), Bool.false_and,
              Bool.false_and]
          · rw [Text.beginsWith_cons, Text.beginsWith_cons,
              ih fun other hOther =>
                hMark other (by simp [hOther])]

/- Folding keeps the kind of a tag. -/
theorem kind_fold
    (s : Text) :
    kind (s.fold isBlank) = kind s := by
  have hName (t : Text) :
      nameOf (t.fold isBlank) = nameOf t := by
    unfold nameOf
    rw [Text.dropWhile_fold rfl (fun _ => id), takeWhile_fold]
  cases s with
  | nil => rfl
  | cons c rest =>
      have hDoctype :=
        beginsWith_fold "!doctype".toList
          (fun _ => id) (c :: rest)
      have hWhole := hName (c :: rest)
      have hRest := hName rest
      unfold Text.fold at *
      rw [Text.foldFrom] at *
      split
      · rename_i hc
        have hNe := of_isBlank_or_isStop (Or.inl hc)
        rw [if_pos hc, if_neg (by simp)] at hDoctype hWhole
        rw [if_neg (by simp), kind, kind, hDoctype,
          if_neg (by decide), if_neg hNe.2.1, hWhole]
        simp [hNe]
      · rename_i hc
        rw [if_neg hc] at hDoctype hWhole
        rw [kind, kind, hDoctype]
        split
        · rw [hRest]
        · rw [hWhole]

/- What a quoted part begins with, also in normal form. -/
theorem head?_normalInside
    {s : Text}
    (h : s.head?.all isQuote = true) :
    (normalInside s).head? = s.head? := by
  cases s with
  | nil =>
      unfold normalInside
      rw [pieces]
      rfl
  | cons c rest =>
      unfold normalInside
      rw [pieces, if_pos (by simpa using h)]
      simp only
      split
      · rfl
      · rfl

/- The normal form of what stands before the first quote. -/
theorem normalInside_eq_append
    (s : Text) :
    normalInside s =
      Text.fold isBlank (s.takeWhile (!isQuote ·)) ++
        normalInside (s.dropWhile (!isQuote ·)) := by
  cases s with
  | nil => rfl
  | cons c rest =>
      cases hc : isQuote c with
      | true =>
          rw [List.takeWhile_cons_of_neg (by simp [hc]),
            List.dropWhile_cons_of_neg (by simp [hc])]
          rfl
      | false =>
          rw [List.takeWhile_cons_of_pos (by simp [hc]),
            List.dropWhile_cons_of_pos (by simp [hc])]
          have hDrop :
              rest.drop
                  (rest.takeWhile (!isQuote ·)).length =
                rest.dropWhile (!isQuote ·) := by
            have hSplit :=
              List.takeWhile_append_dropWhile
                (p := (!isQuote ·)) (l := rest)
            generalize rest.takeWhile (!isQuote ·) = bare at *
            rw [← hSplit, List.drop_left, hSplit]
          conv_lhs => rw [normalInside, pieces]
          rw [if_neg (by simp [hc])]
          simp only [hDrop]
          rfl

/- A quote ends a word. -/
theorem endsWord_of_isQuote
    {s : Text}
    (h : s.head?.all isQuote = true) :
    EndsWord s ∧ s.head?.all (!isBlank ·) = true := by
  cases s with
  | nil => exact ⟨rfl, rfl⟩
  | cons c rest =>
      have hc : isQuote c = true := by simpa using h
      have hInk : isBlank c = false := by
        simp only [isQuote, decide_eq_true_eq] at hc
        rcases hc with rfl | rfl <;> decide
      constructor
      · rw [EndsWord, List.dropWhile_cons_of_neg (by simp [hInk])]
        simp [isStop, hc]
      · simp [hInk]

/- Blanks end a word. -/
theorem kind_trimEnd
    (s : Text) :
    kind (s.trimEnd (· = ' ')) = kind s := by
  rcases Text.exists_trimEnd_append (· = ' ') s with
    ⟨tail, hTail, hEq⟩
  conv_rhs => rw [hEq]
  refine (kind_append _ ?_).symm
  have hBlank : ∀ c ∈ tail, isBlank c = true := by
    intro c hc
    have hSpace := List.all_eq_true.mp hTail c hc
    rw [of_decide_eq_true hSpace]
    rfl
  rw [EndsWord, List.dropWhile_eq_nil_iff.mpr hBlank]
  rfl

/- The normal form of a tag is read behind the blanks. -/
theorem kind_trim_normalInside
    (s : Text) :
    kind ((normalInside s).trim (· = ' ')) =
      kind (s.dropWhile isBlank) := by
  -- the kind depends on what stands before the first quote
  have hNormal := normalInside_eq_append s
  have hWhole := List.takeWhile_append_dropWhile
    (p := (!isQuote ·)) (l := s)
  have hQuoted :
      (s.dropWhile (!isQuote ·)).head?.all isQuote = true := by
    rw [Text.head?_dropWhile, Option.all_eq_true]
    intro c hc
    simpa using List.find?_some hc
  generalize s.takeWhile (!isQuote ·) = bare at *
  generalize s.dropWhile (!isQuote ·) = quoted at *
  have hNormalQuoted := hQuoted
  rw [← head?_normalInside hQuoted] at hNormalQuoted
  generalize normalInside quoted = normal at *
  have hEnds := endsWord_of_isQuote hQuoted
  have hNormalEnds := endsWord_of_isQuote hNormalQuoted
  have hSpace :
      normal.head?.all (fun c => !decide (c = ' ')) =
        true := by
    rw [Option.all_eq_true] at hNormalQuoted ⊢
    rintro c hc
    have hMark := hNormalQuoted c hc
    simp only [Bool.not_eq_true', decide_eq_false_iff_not]
    rintro rfl
    cases hMark
  have hBlank (c : Char) (hc : decide (c = ' ') = true) :
      isBlank c = true := by
    rw [of_decide_eq_true hc]
    rfl
  calc
    kind ((normalInside s).trim (· = ' '))
      = kind ((Text.fold isBlank bare ++ normal).dropWhile
          (· = ' ')) := by
        rw [hNormal, Text.trim, kind_trimEnd]
    _ = kind (Text.fold isBlank (bare.dropWhile isBlank) ++
          normal) := by
        rw [Text.dropWhile_append_of_head? _ hSpace,
          Text.dropWhile_fold rfl hBlank]
    _ = kind (bare.dropWhile isBlank) := by
        rw [kind_append _ hNormalEnds.1, kind_fold]
    _ = kind (s.dropWhile isBlank) := by
        rw [← hWhole,
          Text.dropWhile_append_of_head? _ hEnds.2,
          kind_append _ hEnds.1]

/- A mark behind blanks at the start of the inside. -/
def hidesMark
    (inner : Text) :
    Bool :=
  inner.head?.any isBlank &&
    (inner.find? (!isBlank ·)).any fun c =>
      c = '/' ∨ c = '!' ∨ c = '?'

/- A document type begins with an exclamation mark. -/
theorem beginsWith_eq_false
    {c : Char}
    (rest : Text)
    (h : c ≠ '!') :
    Text.beginsWith "!doctype".toList (c :: rest) = false := by
  have hLower : ¬ c.toLower = '!'.toLower := by
    intro hLower
    exact h (eq_of_toLower (m := '!') hLower rfl)
  have hMark :
      "!doctype".toList = '!' :: "doctype".toList := by
    decide
  rw [hMark, Text.beginsWith_cons, decide_eq_false hLower,
    Bool.false_and]

/- Blanks at the start hide nothing but a mark. -/
theorem kind_dropWhile_iff
    (s : Text) :
    kind (s.dropWhile isBlank) = kind s ↔
      hidesMark s = false := by
  cases s with
  | nil => exact ⟨fun _ => rfl, fun _ => rfl⟩
  | cons c rest =>
      cases hc : isBlank c with
      | false =>
          rw [List.dropWhile_cons_of_neg (by simp [hc])]
          simp [hidesMark, hc]
      | true =>
          have hNe := of_isBlank_or_isStop (Or.inl hc)
          have hFirst :=
            Text.head?_dropWhile isBlank (c :: rest)
          have hOther : Tag.kind (c :: rest) =
              ⟨nameOf (c :: rest), false, false, false⟩ := by
            rw [kind, beginsWith_eq_false rest hNe.2.2.1,
              if_neg hNe.2.1]
            simp [hNe]
          rw [hOther, hidesMark, ← hFirst]
          unfold nameOf
          cases hDrop : (c :: rest).dropWhile isBlank with
          | nil => simp [kind]
          | cons d more =>
              have hd : isBlank d = false := by
                rw [hDrop] at hFirst
                simpa using List.find?_some hFirst.symm
              have hName :
                  (d :: more).takeWhile isNameChar =
                    nameOf (d :: more) := by
                rw [nameOf, List.dropWhile_cons_of_neg
                  (by simp [hd])]
              rw [hName, kind]
              simp only [List.head?_cons, Option.any_some, hc]
              by_cases hMark : d = '/' ∨ d = '!' ∨ d = '?'
              · rw [decide_eq_true hMark, Bool.and_self]
                refine iff_of_false ?_ (by simp)
                intro hKind
                injection hKind with _ hEnd hDeclaration _
                simp only [decide_eq_false_iff_not]
                  at hEnd hDeclaration
                exact hMark.elim hEnd hDeclaration
              · rw [decide_eq_false hMark, Bool.and_false]
                refine iff_of_true ?_ rfl
                rw [not_or, not_or] at hMark
                rw [if_neg hMark.1,
                  beginsWith_eq_false more hMark.2.1]
                simp [hMark]

end Tag

end Markup

end WebTidy

------------------------------------------------------------
-- The End Of The Normal Form
------------------------------------------------------------

namespace WebTidy

namespace Text

/- Folding keeps the last character that is no blank. -/
theorem find?_reverse_fold
    (s : Text) :
    (s.fold isBlank).reverse.find? (fun c => !decide (c = ' ')) =
      s.reverse.find? (!isBlank ·) := by
  have hFrom (inRun : Bool) :
      (foldFrom isBlank inRun s).reverse.find?
          (fun c => !decide (c = ' ')) =
        s.reverse.find? (!isBlank ·) := by
    induction s generalizing inRun with
    | nil => rfl
    | cons c rest ih =>
        rw [List.reverse_cons, List.find?_append, foldFrom]
        split
        · rename_i hc
          split
          · rw [ih]
            simp [hc]
          · rw [List.reverse_cons, List.find?_append, ih]
            simp [hc]
        · rename_i hc
          have hNe : c ≠ ' ' := by
            rintro rfl
            exact hc rfl
          rw [List.reverse_cons, List.find?_append, ih]
          simp [hc, hNe]
  exact hFrom false

end Text

namespace Markup

namespace Tag

/- A text, split at its quotes. -/
inductive IsSplit :
    Text → List Piece → Prop
| nil :
    IsSplit [] []
| bare
    {text rest : Text}
    {more : List Piece}
    (hText : ∀ c ∈ text, isQuote c = false)
    (hRest : IsSplit rest more) :
    IsSplit (text ++ rest) (.bare text :: more)
| value
    {mark : Char}
    {text rest : Text}
    {more : List Piece}
    (hMark : isQuote mark = true)
    (hText : mark ∉ text)
    (hRest : IsSplit rest more) :
    IsSplit (mark :: text ++ mark :: rest)
      (.value mark text true :: more)
| cut
    {mark : Char}
    {text : Text}
    (hMark : isQuote mark = true)
    (hText : mark ∉ text) :
    IsSplit (mark :: text) [.value mark text false]

/- The pieces of a text are a split of it. -/
theorem isSplit_pieces
    (s : Text) :
    IsSplit s (pieces s) := by
  fun_induction pieces s with
  | case1 => exact .nil
  | case2 c rest hc text hText ih =>
      have hNot : c ∉ text := by
        intro hMem
        simpa using List.mem_takeWhile_imp hMem
      have hWhole : text ++ rest.dropWhile (· ≠ c) = rest :=
        List.takeWhile_append_dropWhile
      have hFirst := Text.head?_dropWhile (· ≠ c) rest
      cases hMore : rest.dropWhile (· ≠ c) with
      | nil =>
          rw [hMore, List.append_nil] at hWhole
          rw [hWhole] at hText
          omega
      | cons d more =>
          rw [hMore] at hWhole hFirst
          have hd : d = c := by
            simpa using List.find?_some hFirst.symm
          rw [hd] at hWhole
          have hDrop : rest.drop (text.length + 1) = more := by
            rw [← hWhole, List.drop_length_add_append]
            rfl
          rw [hDrop] at ih ⊢
          rw [← hWhole]
          exact .value hc hNot ih
  | case3 c rest hc text hText =>
      refine .cut hc ?_
      intro hMem
      have hWhole : text ++ rest.dropWhile (· ≠ c) = rest :=
        List.takeWhile_append_dropWhile
      have hNone : rest.dropWhile (· ≠ c) = [] := by
        have hLength := congrArg List.length hWhole
        rw [List.length_append] at hLength
        exact List.length_eq_zero_iff.mp (by omega)
      have hOther := List.dropWhile_eq_nil_iff.mp hNone c hMem
      simp at hOther
  | case4 c rest hc text ih =>
      have hWhole : text ++ rest.dropWhile (!isQuote ·) = rest :=
        List.takeWhile_append_dropWhile
      have hDrop :
          rest.drop text.length =
            rest.dropWhile (!isQuote ·) := by
        conv_lhs => rw [← hWhole]
        exact List.drop_left
      have hBare : ∀ d ∈ c :: text, isQuote d = false := by
        intro d hd
        rcases List.mem_cons.mp hd with rfl | hd
        · simpa using hc
        · simpa using List.mem_takeWhile_imp hd
      rw [hDrop] at ih ⊢
      conv_lhs => rw [← hWhole]
      exact .bare hBare ih

/- A value whose closing mark is missing. -/
def Piece.isOpen :
    Piece → Bool
| .bare _ => false
| .value _ _ closed => !closed

/- A value inside the tag is not closed. -/
def isCut
    (inner : Text) :
    Bool :=
  (pieces inner).any Piece.isOpen

/- The normal form ends like the inside of the tag. -/
theorem find?_reverse_normalInside
    {s : Text}
    (h : isCut s = false) :
    (normalInside s).reverse.find?
        (fun c => !decide (c = ' ')) =
      s.reverse.find? (!isBlank ·) := by
  have hSplit := isSplit_pieces s
  unfold normalInside
  unfold isCut at h
  generalize pieces s = all at *
  induction hSplit with
  | nil => rfl
  | bare hText hRest ih =>
      rw [List.any_cons, Bool.or_eq_false_iff] at h
      rw [List.flatMap_cons, List.reverse_append,
        List.reverse_append, List.find?_append,
        List.find?_append, ih h.2]
      exact congrArg _ (Text.find?_reverse_fold _)
  | @value mark text rest more hMark hText hRest ih =>
      rw [List.any_cons, Bool.or_eq_false_iff] at h
      rw [List.flatMap_cons, List.reverse_append,
        List.reverse_append, List.find?_append,
        List.find?_append, ih h.2]
      have hInk : isBlank mark = false ∧ mark ≠ ' ' := by
        simp only [isQuote, decide_eq_true_eq] at hMark
        rcases hMark with rfl | rfl <;> decide
      simp [Piece.normal, hInk]
  | cut => cases h

/- The last character of the trimmed normal form. -/
theorem getLast?_trim_normalInside
    {s : Text}
    (h : isCut s = false) :
    ((normalInside s).trim (· = ' ')).getLast? =
      s.reverse.find? (!isBlank ·) := by
  rw [Text.getLast?_trim, find?_reverse_normalInside h]

/- The end of a tag is sought behind a quoted value. -/
theorem closeIndex?_value
    {mark : Char}
    {text : Text}
    (hText : mark ∉ text)
    (rest : Text) :
    closeIndex? (some mark) (text ++ mark :: rest) =
      (closeIndex? none rest).map (· + (text.length + 1)) := by
  induction text with
  | nil => simp [closeIndex?]
  | cons c text ih =>
      rw [List.mem_cons, not_or] at hText
      rw [List.cons_append, closeIndex?, if_neg (Ne.symm hText.1),
        ih hText.2, Option.map_map]
      rfl

/- No tag ends in a value that is not closed. -/
theorem closeIndex?_cut
    {mark : Char}
    {text : Text}
    (hText : mark ∉ text) :
    closeIndex? (some mark) text = none := by
  induction text with
  | nil => rfl
  | cons c text ih =>
      rw [List.mem_cons, not_or] at hText
      rw [closeIndex?, if_neg (Ne.symm hText.1), ih hText.2]
      rfl

/- The end of a tag is sought behind a text without quotes. -/
theorem closeIndex?_bare
    {text rest : Text}
    {n : Nat}
    (hText : ∀ c ∈ text, isQuote c = false)
    (h :
      closeIndex? none (text ++ rest) =
        some (text.length + n)) :
    closeIndex? none rest = some n := by
  induction text generalizing n with
  | nil => simpa using h
  | cons c text ih =>
      rw [List.cons_append, closeIndex?] at h
      split at h
      · simp at h
        omega
      · rw [hText c (by simp), if_neg (by simp)] at h
        rcases Option.map_eq_some_iff.mp h with ⟨m, hm, hEq⟩
        rw [List.length_cons] at hEq
        apply ih fun d hd => hText d (by simp [hd])
        rw [hm]
        congr 1
        omega

/- A tag that ends has closed all its values. -/
theorem isCut_eq_false
    {s : Text}
    (h : closeIndex? none (s ++ ['>']) = some s.length) :
    isCut s = false := by
  have hSplit := isSplit_pieces s
  unfold isCut
  generalize pieces s = all at *
  induction hSplit with
  | nil => rfl
  | bare hText hRest ih =>
      rw [List.append_assoc, List.length_append] at h
      exact ih (closeIndex?_bare hText h)
  | @value mark text rest more hMark hText hRest ih =>
      have hOpen : mark ≠ '>' := by
        rintro rfl
        cases hMark
      apply ih
      rw [List.append_assoc, List.cons_append, closeIndex?,
        if_neg hOpen, if_pos hMark, List.cons_append,
        closeIndex?_value hText] at h
      rcases Option.map_eq_some_iff.mp h with ⟨m, hm, hEq⟩
      rcases Option.map_eq_some_iff.mp hm with ⟨k, hk, rfl⟩
      rw [hk]
      simp only [List.length_cons, List.length_append] at hEq
      congr 1
      omega
  | @cut mark text hMark hText =>
      have hOpen : mark ≠ '>' := by
        rintro rfl
        cases hMark
      have hNone : mark ∉ text ++ ['>'] := by
        simp [hText, hOpen]
      rw [List.cons_append, closeIndex?, if_neg hOpen,
        if_pos hMark, closeIndex?_cut hNone] at h
      cases h

end Tag

end Markup

end WebTidy

------------------------------------------------------------
-- Tags And Their Normal Forms
------------------------------------------------------------

namespace WebTidy

namespace Markup

namespace Tag

/- A slash before blanks at the end of the inside. -/
def hidesSlash
    (inner : Text) :
    Bool :=
  inner.getLast?.any isBlank &&
    inner.reverse.find? (!isBlank ·) = some '/'

/- A tag with a closing bracket and a slash before it. -/
theorem selfClosing_read_bracket
    (s inner : Text) :
    (Head.read ('<' :: (s ++ ['>'])) inner).selfClosing =
      decide (s.getLast? = some '/') := by
  have hTrim :
      Text.trimEnd isBlank ('<' :: (s ++ ['>'])) =
        '<' :: (s ++ ['>']) := by
    rw [Text.trimEnd_cons _ rfl, Text.trimEnd,
      List.reverse_append]
    simp [isBlank]
  have hSuffix :
      "/>".toList <:+ '<' :: (s ++ ['>']) ↔
        s.getLast? = some '/' := by
    rw [← List.reverse_prefix, ← List.head?_reverse]
    cases hRev : s.reverse with
    | nil => simp [hRev]
    | cons c rest => simp [hRev, eq_comm]
  simp only [Head.read, hTrim, hSuffix]

/- A tag without a closing bracket. -/
theorem selfClosing_read_open
    {s : Text}
    (inner : Text)
    (hInk : s.getLast?.all (!isBlank ·) = true)
    (hOpen : s.getLast? ≠ some '>') :
    (Head.read ('<' :: s) inner).selfClosing = false := by
  have hTrim :
      Text.trimEnd isBlank ('<' :: s) = '<' :: s := by
    rw [Text.trimEnd_cons _ rfl]
    have hSelf := @Text.trimEnd_append isBlank s [] rfl hInk
    rw [List.append_nil] at hSelf
    rw [hSelf]
  have hSuffix : ¬ "/>".toList <:+ '<' :: s := by
    rintro ⟨front, hFront⟩
    have hEnd : ('<' :: s).getLast? = some '>' := by
      rw [← hFront]
      simp
    cases s with
    | nil => cases hEnd
    | cons c rest =>
        rw [List.getLast?_cons_cons] at hEnd
        exact hOpen hEnd
  simp only [Head.read, hTrim, hSuffix, decide_false]

/- Blanks at the end hide nothing but a slash. -/
theorem getLast?_iff
    (s : Text) :
    (s.getLast? = some '/' ↔
        s.reverse.find? (!isBlank ·) = some '/') ↔
      hidesSlash s = false := by
  unfold hidesSlash
  rw [← List.head?_reverse]
  cases s.reverse with
  | nil => simp
  | cons c rest =>
      cases hc : isBlank c with
      | true =>
          have hNe := (of_isBlank_or_isStop (Or.inl hc)).2.1
          simp [hc, hNe]
      | false => simp [hc]

/-
  A tag without blanks around it and its normal form are of
  the same kind unless a mark is hidden, and both close
  themselves unless a slash is hidden or a value is cut.
-/
theorem heads_normalize
    {rest : Text}
    (hLast : ('<' :: rest).getLast?.all (!isBlank ·) = true) :
    ∃ head next,
      head? ('<' :: rest) = some head ∧
      head? (normalize ('<' :: rest)) = some next ∧
      (head.name = next.name ∧ head.isEnd = next.isEnd ∧
        isDeclaration ('<' :: rest) =
          isDeclaration (normalize ('<' :: rest)) ∧
        isDoctype ('<' :: rest) =
          isDoctype (normalize ('<' :: rest)) ↔
        hidesMark (inside ('<' :: rest)) = false) ∧
      (isCut (inside ('<' :: rest)) = false →
        (head.selfClosing = next.selfClosing ↔
          hidesSlash (inside ('<' :: rest)) = false)) := by
  have hWhole := cons_inside_append_bracket rest
  have hNormal := normalize_cons rest
  have hBracket := bracket_cases ('<' :: rest)
  rw [hNormal]
  rw [← hWhole] at hLast
  generalize inside ('<' :: rest) = inner at *
  generalize bracket ('<' :: rest) = close at *
  rw [← hWhole]
  have hKind := kind_trim_normalInside inner
  have hEnd := @getLast?_trim_normalInside inner
  generalize (normalInside inner).trim (· = ' ') = next at *
  have hClose : EndsWord close := by
    rcases hBracket with rfl | ⟨rfl, _⟩ <;> rfl
  refine ⟨_, _, rfl, rfl, ?_, ?_⟩
  · rw [← kind_dropWhile_iff, ← hKind,
      ← kind_append next hClose, ← kind_append inner hClose,
      kind_eq ('<' :: (next ++ close)),
      kind_eq ('<' :: (inner ++ close)), Kind.mk.injEq]
    constructor
    · rintro ⟨hName, hEnds, hDeclaration, hDoctype⟩
      exact ⟨hName.symm, hEnds.symm, hDeclaration.symm,
        hDoctype.symm⟩
    · rintro ⟨hName, hEnds, hDeclaration, hDoctype⟩
      exact ⟨hName.symm, hEnds.symm, hDeclaration.symm,
        hDoctype.symm⟩
  · intro hCut
    rw [← getLast?_iff, ← hEnd hCut]
    rcases hBracket with rfl | ⟨rfl, hOpen⟩
    · rw [selfClosing_read_bracket, selfClosing_read_bracket,
        decide_eq_decide]
    · have hInk : inner.getLast?.all (!isBlank ·) = true := by
        cases inner with
        | nil => rfl
        | cons c rest =>
            rw [List.append_nil, List.getLast?_cons_cons]
              at hLast
            exact hLast
      have hSame : next.getLast? = inner.getLast? := by
        rw [hEnd hCut, ← List.head?_reverse]
        rw [← List.head?_reverse] at hInk
        cases hRev : inner.reverse with
        | nil => rfl
        | cons c rest =>
            rw [hRev] at hInk
            exact List.find?_cons_of_pos hInk
      rw [List.append_nil, List.append_nil,
        selfClosing_read_open _ hInk hOpen,
        selfClosing_read_open _ (hSame ▸ hInk) (hSame ▸ hOpen),
        hSame]
      simp

/- A tag that ends is cut nowhere. -/
theorem isCut_inside
    {source : Text}
    (hHead : source.head? = some '<')
    (hEnd :
      endIndex? source 0 = some (source.length - 1)) :
    isCut (inside (source.trim isBlank)) = false := by
  rcases List.head?_eq_some_iff.mp hHead with ⟨tail, rfl⟩
  rcases Option.map_eq_some_iff.mp hEnd with ⟨n, hn, hLength⟩
  change closeIndex? none tail = some n at hn
  have hEq : n = tail.length - 1 := by
    simp at hLength
    omega
  have hLast : tail.getLast? = some '>' := by
    rw [List.getLast?_eq_getElem?, ← hEq]
    exact getElem?_closeIndex? hn
  have hTrim :
      Text.trim isBlank ('<' :: tail) = '<' :: tail := by
    apply IsBracketed.trim_eq
    refine ⟨rfl, ?_⟩
    rw [List.getLast?_cons, hLast]
    rfl
  rw [hTrim, inside]
  simp only [List.drop_succ_cons, List.drop_zero]
  rw [if_pos hLast]
  apply isCut_eq_false
  rw [List.dropLast_append_getLast? _ hLast, hn, hEq,
    List.length_dropLast]

end Tag

/-
  Every tag of a document has a head, and so has its normal
  form.  Both have the same name, both or neither are end
  tags, declarations and document types, exactly if no mark
  is hidden behind blanks; and both or neither close
  themselves exactly if no slash is hidden before blanks.
  Only a tag that does not end can have a value that is cut,
  where the decoded end of the value is read as well.
-/
theorem exists_heads_of_mem_scan
    {document source : Text}
    (hTag : .tag source ∈ Token.scan document) :
    ∃ head next,
      Tag.head? (source.trim isBlank) = some head ∧
      Tag.head? (tagText source) = some next ∧
      (head.name = next.name ∧ head.isEnd = next.isEnd ∧
        Tag.isDeclaration (source.trim isBlank) =
          Tag.isDeclaration (tagText source) ∧
        Tag.isDoctype (source.trim isBlank) =
          Tag.isDoctype (tagText source) ↔
        Tag.hidesMark (Tag.inside (source.trim isBlank)) =
          false) ∧
      (Tag.isCut (Tag.inside (source.trim isBlank)) = false →
        (head.selfClosing = next.selfClosing ↔
          Tag.hidesSlash (Tag.inside (source.trim isBlank)) =
            false)) ∧
      (Tag.endIndex? source 0 ≠ none →
        Tag.isCut (Tag.inside (source.trim isBlank)) =
          false) := by
  have hHead : source.head? = some '<' :=
    Token.isShaped_of_mem_scan hTag
  have hLast := (Text.trim_ends isBlank source).2
  have hCut :
      Tag.endIndex? source 0 ≠ none →
        Tag.isCut (Tag.inside (source.trim isBlank)) =
          false := by
    intro hEnds
    rcases List.append_of_mem hTag with ⟨front, tail, hScan⟩
    rcases Token.exists_first_of_scan hScan with
      ⟨y, hFirst, _, _⟩
    rcases Token.endIndex?_of_first hFirst with
      hEnd | ⟨_, hNone⟩
    · exact Tag.isCut_inside hHead hEnd
    · exact absurd hNone hEnds
  rcases List.head?_eq_some_iff.mp hHead with ⟨tail, rfl⟩
  have hTrim :
      Text.trim isBlank ('<' :: tail) =
        '<' :: Text.trimEnd isBlank tail := by
    rw [Text.trim, List.dropWhile_cons_of_neg (by decide),
      Text.trimEnd_cons _ rfl]
  unfold tagText
  rw [hTrim] at hLast hCut ⊢
  rcases Tag.heads_normalize hLast with
    ⟨head, next, hRead, hNext, hKind, hSlash⟩
  exact ⟨head, next, hRead, hNext, hKind, hSlash, hCut⟩

/- A start tag with blanks in all places. -/
def looseParagraph :
    Text :=
  "<\tp\n title=' a  b ' >".toList

/- It is the same start tag in normal form. -/
theorem exists_heads_looseParagraph :
    ∃ head next,
      Tag.head? (looseParagraph.trim isBlank) = some head ∧
      Tag.head? (tagText looseParagraph) = some next ∧
      head.name = next.name ∧ head.isEnd = next.isEnd ∧
      head.selfClosing = next.selfClosing := by
  rcases @exists_heads_of_mem_scan looseParagraph
      looseParagraph (by decide +kernel) with
    ⟨head, next, hRead, hNext, hKind, hSlash, hCut⟩
  have hMark := hKind.mpr (by decide +kernel)
  have hSelf :=
    (hSlash (hCut (by decide +kernel))).mpr (by decide +kernel)
  exact ⟨head, next, hRead, hNext, hMark.1, hMark.2.1, hSelf⟩

/-
  Blanks can hide what the normal form shows: an end tag, a
  document type and a tag that closes itself are not read as
  such, but they are written as such.
-/
theorem hidden_marks :
    (Token.scan "< /x>".toList = [.tag "< /x>".toList] ∧
      Tag.head? "< /x>".toList =
        some ⟨[], false, false⟩ ∧
      tagText "< /x>".toList = "</x>".toList ∧
      Tag.head? "</x>".toList =
        some ⟨"x".toList, true, false⟩) ∧
    (Token.scan "< !doctype>".toList =
        [.tag "< !doctype>".toList] ∧
      Tag.isDoctype "< !doctype>".toList = false ∧
      Tag.isDoctype (tagText "< !doctype>".toList) = true) ∧
    (Token.scan "<x / >".toList = [.tag "<x / >".toList] ∧
      Tag.head? "<x / >".toList =
        some ⟨"x".toList, false, false⟩ ∧
      Tag.head? (tagText "<x / >".toList) =
        some ⟨"x".toList, false, true⟩) := by
  decide +kernel

end Markup

end WebTidy
