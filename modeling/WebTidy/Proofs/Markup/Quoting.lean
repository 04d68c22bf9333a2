import WebTidy.Proofs.CharRef.Safety
import WebTidy.Proofs.Markup.Kind

/-
  The quote structure of a tag.

  Between its brackets, a tag that ends is text outside
  quotes with quoted values in it.  The text has no closing
  bracket and no quotes, and a value does not have its own
  mark inside, so every such tag can be read in one way
  only.  The normal form keeps this structure: it has the
  same marks around the decoded values, and it ends where
  its last bracket stands.

  Key definitions include:
    * `WebTidy.Markup.Tag.Quoting`
    * `WebTidy.Markup.Tag.Quoting.tag`
    * `WebTidy.Markup.Tag.Quoting.normal`
    * `WebTidy.Markup.Tag.Renders`

  Key theorems include:
    * `WebTidy.Markup.Tag.exists_quoting_iff`
    * `WebTidy.Markup.Tag.Quoting.eq_of_source`
    * `WebTidy.Markup.Tag.Quoting.normalize_tag`
    * `WebTidy.Markup.Tag.quoting_normalize`
-/

------------------------------------------------------------
-- Quotings
------------------------------------------------------------

namespace WebTidy

namespace Markup

namespace Tag

/- Text outside quotes. -/
@[ext] structure Bare where
  text : Text
  plain : ∀ c ∈ text, isStop c = false

/- A quoted value, without its marks. -/
@[ext] structure Value where
  mark : Char
  text : Text
  isQuote_mark : isQuote mark = true
  not_mem : mark ∉ text

/-
  What stands between the brackets of a tag: text outside
  quotes, in which quoted values stand.
-/
inductive Quoting
| last (bare : Bare)
| next (bare : Bare) (value : Value) (rest : Quoting)

namespace Quoting

/- What stands between the brackets, as it is written. -/
def source :
    Quoting → Text
| .last bare => bare.text
| .next bare value rest =>
    bare.text ++
      value.mark :: (value.text ++ value.mark :: rest.source)

/- A tag with its brackets. -/
def tag
    (x : Quoting) :
    Text :=
  '<' :: (x.source ++ ['>'])

/- The quoted values with their marks. -/
def values :
    Quoting → List (Char × Text)
| .last _ => []
| .next _ value rest =>
    (value.mark, value.text) :: rest.values

/- The texts before, between and behind the values. -/
def bares :
    Quoting → List Text
| .last bare => [bare.text]
| .next bare _ rest => bare.text :: rest.bares

/- There is always a text behind the last value. -/
theorem bares_ne_nil
    (x : Quoting) :
    x.bares ≠ [] := by
  cases x <;> simp [bares]

/- A quoting is its values and the texts around them. -/
theorem eq_of_values
    {x y : Quoting}
    (hValues : x.values = y.values)
    (hBares : x.bares = y.bares) :
    x = y := by
  induction x generalizing y with
  | last bare =>
      cases y with
      | last other =>
          rw [Bare.ext (List.cons.inj hBares).1]
      | next other value rest => cases hValues
  | next bare value rest ih =>
      cases y with
      | last other => cases hValues
      | next other otherValue otherRest =>
          rcases List.cons.inj hValues with ⟨hValue, hMore⟩
          rcases List.cons.inj hBares with ⟨hBare, hBehind⟩
          rcases Prod.mk.inj hValue with ⟨hMark, hText⟩
          rw [Bare.ext hBare, Value.ext hMark hText,
            ih hMore hBehind]

end Quoting

end Tag

end Markup

end WebTidy

------------------------------------------------------------
-- One Reading
------------------------------------------------------------

namespace WebTidy

namespace Text

/- A text is cut in one way at its first mark of a class. -/
theorem append_cons_inj
    {p : Char → Bool}
    {a b r t : Text}
    {c d : Char}
    (ha : ∀ e ∈ a, p e = false)
    (hb : ∀ e ∈ b, p e = false)
    (hc : p c = true)
    (hd : p d = true)
    (h : a ++ c :: r = b ++ d :: t) :
    a = b ∧ c = d ∧ r = t := by
  have hFirst {u : Text} {e : Char} {v : Text}
      (hu : ∀ f ∈ u, p f = false)
      (he : p e = true) :
      (u ++ e :: v).takeWhile (!p ·) = u := by
    rw [List.takeWhile_append_of_pos (by simpa using hu),
      List.takeWhile_cons_of_neg (by simp [he]),
      List.append_nil]
  have hSame : a = b := by
    rw [← hFirst ha hc (v := r), h, hFirst hb hd]
  rw [hSame] at h
  rcases List.cons.inj (List.append_cancel_left h) with
    ⟨hMark, hRest⟩
  exact ⟨hSame, hMark, hRest⟩

end Text

namespace Markup

namespace Tag

/- A quote is a stop. -/
theorem isStop_of_isQuote
    {c : Char}
    (h : isQuote c = true) :
    isStop c = true := by
  simp [isStop, h]

/- No stop is a blank. -/
theorem isBlank_of_isStop
    {c : Char}
    (h : isStop c = true) :
    isBlank c = false := by
  simp only [isStop, isQuote, decide_eq_true_eq] at h
  rcases h with (rfl | rfl) | rfl <;> decide

/- No mark of a value stands outside quotes. -/
theorem Bare.mark_not_mem
    (bare : Bare)
    (value : Value) :
    value.mark ∉ bare.text := by
  intro hMem
  have hPlain := bare.plain value.mark hMem
  rw [isStop_of_isQuote value.isQuote_mark] at hPlain
  cases hPlain

/- Neither is one a space. -/
theorem Value.mark_ne_space
    (value : Value) :
    value.mark ≠ ' ' := by
  intro hSame
  have hMark := value.isQuote_mark
  rw [hSame] at hMark
  cases hMark

/- A text between brackets can be read in one way only. -/
theorem Quoting.eq_of_source
    {x y : Quoting}
    (h : x.source = y.source) :
    x = y := by
  induction x generalizing y with
  | last bare =>
      cases y with
      | last other => rw [Bare.ext h]
      | next other value rest =>
          refine absurd ?_ (bare.mark_not_mem value)
          rw [show bare.text = _ from h]
          simp [source]
  | next bare value rest ih =>
      cases y with
      | last other =>
          refine absurd ?_ (other.mark_not_mem value)
          rw [show other.text = _ from h.symm]
          simp [source]
      | next other otherValue otherRest =>
          rcases Text.append_cons_inj bare.plain other.plain
            (isStop_of_isQuote value.isQuote_mark)
            (isStop_of_isQuote otherValue.isQuote_mark) h with
            ⟨hBare, hSame, hInner⟩
          have hNone {v : Value} (hv : v.mark = value.mark) :
              ∀ c ∈ v.text, decide (c = value.mark) = false := by
            intro c hc
            rw [decide_eq_false_iff_not]
            rintro rfl
            exact v.not_mem (hv ▸ hc)
          rcases Text.append_cons_inj (hNone rfl)
            (hNone hSame.symm) (decide_eq_true rfl)
            (decide_eq_true hSame.symm) hInner with
            ⟨hText, _, hRest⟩
          rw [Bare.ext hBare, Value.ext hSame hText, ih hRest]

/- A tag can be read in one way only. -/
theorem Quoting.tag_inj_iff
    {x y : Quoting} :
    x.tag = y.tag ↔ x = y := by
  constructor
  · intro h
    apply Quoting.eq_of_source
    exact List.append_cancel_right (List.cons.inj h).2
  · rintro rfl
    rfl

end Tag

end Markup

end WebTidy

------------------------------------------------------------
-- Tags That End
------------------------------------------------------------

namespace WebTidy

namespace Markup

namespace Tag

/- The end of a tag is sought behind a text without stops. -/
theorem closeIndex?_plain
    {text : Text}
    (hText : ∀ c ∈ text, isStop c = false)
    (rest : Text) :
    closeIndex? none (text ++ rest) =
      (closeIndex? none rest).map (· + text.length) := by
  induction text with
  | nil => simp
  | cons c text ih =>
      have hc : ¬ isQuote c = true ∧ c ≠ '>' := by
        have hStop := hText c (by simp)
        simpa [isStop] using hStop
      rw [List.cons_append, closeIndex?, if_neg hc.2,
        if_neg hc.1, ih fun d hd => hText d (by simp [hd]),
        Option.map_map]
      rfl

/- A tag ends behind all its values. -/
theorem Quoting.closeIndex?_source
    (x : Quoting)
    (rest : Text) :
    closeIndex? none (x.source ++ '>' :: rest) =
      some x.source.length := by
  induction x with
  | last bare =>
      rw [source, closeIndex?_plain bare.plain, closeIndex?,
        if_pos rfl]
      simp
  | next bare value more ih =>
      have hOpen : value.mark ≠ '>' := by
        intro hSame
        have hMark := value.isQuote_mark
        rw [hSame] at hMark
        cases hMark
      rw [source, List.append_assoc,
        closeIndex?_plain bare.plain, List.cons_append,
        closeIndex?, if_neg hOpen, if_pos value.isQuote_mark,
        List.append_assoc, List.cons_append,
        closeIndex?_value value.not_mem, ih]
      simp only [Option.map_some, Option.some_inj,
        List.length_append, List.length_cons]
      omega

/-
  A text that is closed by the bracket behind it can be
  read, outside quotes and inside a value.
-/
theorem exists_source
    (s : Text) :
    (closeIndex? none (s ++ ['>']) = some s.length →
      ∃ x : Quoting, x.source = s) ∧
    ∀ mark, isQuote mark = true →
      closeIndex? (some mark) (s ++ ['>']) = some s.length →
      ∃ (value : Value) (x : Quoting),
        value.mark = mark ∧
          s = value.text ++ mark :: x.source := by
  -- both together, since a quote leads from one to the other
  induction s with
  | nil =>
      constructor
      · intro _
        exact ⟨.last ⟨[], by simp⟩, rfl⟩
      · intro mark _ h
        simp [closeIndex?] at h
  | cons c rest ih =>
      constructor
      · intro h
        rw [List.cons_append, closeIndex?] at h
        split at h
        · simp at h
        · rename_i hBracket
          rcases Option.map_eq_some_iff.mp h with ⟨n, hn, hEq⟩
          have hLength : n = rest.length := by
            simpa using hEq
          rw [hLength] at hn
          split at hn
          · rename_i hQuote
            rcases ih.2 c hQuote hn with
              ⟨value, x, rfl, hRest⟩
            refine ⟨.next ⟨[], by simp⟩ value x, ?_⟩
            rw [hRest]
            rfl
          · rename_i hQuote
            have hPlain : isStop c = false := by
              simp [isStop, hQuote, hBracket]
            rcases ih.1 hn with ⟨x, rfl⟩
            -- the character belongs to the first bare text
            cases x with
            | last bare =>
                refine ⟨.last ⟨c :: bare.text, ?_⟩, rfl⟩
                simpa [hPlain] using bare.plain
            | next bare value x =>
                refine ⟨.next ⟨c :: bare.text, ?_⟩ value x, rfl⟩
                simpa [hPlain] using bare.plain
      · intro mark hMark h
        rw [List.cons_append, closeIndex?] at h
        rcases Option.map_eq_some_iff.mp h with ⟨n, hn, hEq⟩
        have hLength : n = rest.length := by
          simpa using hEq
        rw [hLength] at hn
        split at hn
        · rename_i hSame
          rcases ih.1 hn with ⟨x, rfl⟩
          refine ⟨⟨mark, [], hMark, by simp⟩, x, rfl, ?_⟩
          rw [hSame]
          rfl
        · rename_i hOther
          rcases ih.2 mark hMark hn with
            ⟨value, x, hValue, hRest⟩
          refine ⟨⟨mark, c :: value.text, hMark, ?_⟩, x, rfl, ?_⟩
          · rw [List.mem_cons, not_or]
            exact ⟨Ne.symm hOther, hValue ▸ value.not_mem⟩
          · rw [hRest]
            rfl

/- The tags that end are those that can be read. -/
theorem exists_quoting_iff
    {tag : Text} :
    (∃ x : Quoting, x.tag = tag) ↔
      tag.head? = some '<' ∧
        endIndex? tag 0 = some (tag.length - 1) := by
  constructor
  · rintro ⟨x, rfl⟩
    refine ⟨rfl, ?_⟩
    rw [endIndex?, Quoting.tag]
    simp only [Nat.zero_add, List.drop_succ_cons,
      List.drop_zero, x.closeIndex?_source []]
    simp
  · rintro ⟨hHead, hEnd⟩
    rcases List.head?_eq_some_iff.mp hHead with ⟨inner, rfl⟩
    rcases Option.map_eq_some_iff.mp hEnd with ⟨n, hn, hLength⟩
    change closeIndex? none inner = some n at hn
    have hEq : n = inner.length - 1 := by
      simp at hLength
      omega
    have hLast : inner.getLast? = some '>' := by
      rw [List.getLast?_eq_getElem?, ← hEq]
      exact getElem?_closeIndex? hn
    have hWhole := List.dropLast_append_getLast? _ hLast
    rw [← hWhole, hEq, ← List.length_dropLast] at hn
    rcases (exists_source inner.dropLast).1 hn with ⟨x, hx⟩
    refine ⟨x, ?_⟩
    rw [Quoting.tag, hx, hWhole]

end Tag

end Markup

end WebTidy

------------------------------------------------------------
-- Normal Quotings
------------------------------------------------------------

namespace WebTidy

namespace Markup

namespace Tag

/- Text outside quotes with its blanks folded. -/
def Bare.folded
    (bare : Bare) :
    Bare where
  text := bare.text.fold isBlank
  plain := by
    intro c hc
    cases hBlank : isBlank c with
    | false =>
        exact bare.plain c (mem_of_mem_fold hBlank hc)
    | true =>
        cases hStop : isStop c with
        | false => rfl
        | true =>
            have hInk := isBlank_of_isStop hStop
            rw [hBlank] at hInk
            cases hInk

/- Part of the text outside quotes. -/
def Bare.part
    (bare : Bare)
    (text : Text)
    (hPart : text ⊆ bare.text) :
    Bare where
  text := text
  plain := fun c hc => bare.plain c (hPart hc)

/- A value with its blanks folded and decoded. -/
def Value.normal
    (value : Value) :
    Value where
  mark := value.mark
  text :=
    CharRef.decode .attribute (value.text.fold isBlank)
  isQuote_mark := value.isQuote_mark
  not_mem := by
    have hMark := value.isQuote_mark
    have hInk := isBlank_of_isStop (isStop_of_isQuote hMark)
    have hKept :
        CharRef.Mode.keeps .attribute value.mark = true ∧
          value.mark ≠ '&' := by
      simp only [isQuote, decide_eq_true_eq] at hMark
      rcases hMark with hMark | hMark <;>
        simp [CharRef.Mode.keeps, hMark]
    rw [CharRef.mem_decode_iff hKept.1 hKept.2]
    intro hMem
    exact value.not_mem (mem_of_mem_fold hInk hMem)

/- The normal form of a value between other parts. -/
theorem normalInside_value
    {mark : Char}
    {text : Text}
    (hMark : isQuote mark = true)
    (hText : mark ∉ text)
    (rest : Text) :
    normalInside (mark :: (text ++ mark :: rest)) =
      mark :: (CharRef.decode .attribute (text.fold isBlank) ++
        mark :: normalInside rest) := by
  have hRun :
      (text ++ mark :: rest).takeWhile (· ≠ mark) = text := by
    rw [List.takeWhile_append_of_pos, List.takeWhile_cons_of_neg
      (by simp), List.append_nil]
    intro c hc
    rw [decide_eq_true_eq]
    rintro rfl
    exact hText hc
  have hDrop :
      (text ++ mark :: rest).drop (text.length + 1) = rest := by
    rw [List.drop_length_add_append]
    rfl
  rw [normalInside, pieces, if_pos hMark]
  simp only [hRun]
  rw [if_pos (by simp), hDrop, List.flatMap_cons]
  simp [Piece.normal, normalInside]

namespace Quoting

/- All parts in normal form. -/
def folded :
    Quoting → Quoting
| .last bare => .last bare.folded
| .next bare value rest =>
    .next bare.folded value.normal rest.folded

/- Without spaces behind the opening bracket. -/
def trimFirst :
    Quoting → Quoting
| .last bare =>
    .last (bare.part (bare.text.dropWhile (· = ' '))
      (List.dropWhile_sublist _).subset)
| .next bare value rest =>
    .next (bare.part (bare.text.dropWhile (· = ' '))
      (List.dropWhile_sublist _).subset) value rest

/- Without spaces before the closing bracket. -/
def trimLast :
    Quoting → Quoting
| .last bare =>
    .last (bare.part (bare.text.trimEnd (· = ' '))
      (Text.trimEnd_prefix _ _).subset)
| .next bare value rest => .next bare value rest.trimLast

/- The quote structure of the normal form. -/
def normal
    (x : Quoting) :
    Quoting :=
  x.folded.trimFirst.trimLast

/- Trimming the first text trims the whole. -/
theorem source_trimFirst
    (x : Quoting) :
    x.trimFirst.source = x.source.dropWhile (· = ' ') := by
  cases x with
  | last bare => rfl
  | next bare value rest =>
      rw [trimFirst, source, source,
        Text.dropWhile_append_of_head? _
          (by simp [value.mark_ne_space])]
      rfl

/- Trimming the last text trims the whole. -/
theorem source_trimLast
    (x : Quoting) :
    x.trimLast.source = x.source.trimEnd (· = ' ') := by
  induction x with
  | last bare => rfl
  | next bare value rest ih =>
      have hText :
          bare.text ++
              value.mark ::
                (value.text ++ value.mark :: rest.source) =
            (bare.text ++ value.mark :: value.text ++
              [value.mark]) ++ rest.source := by
        simp
      have hLast :
          (bare.text ++ value.mark :: value.text ++
            [value.mark]).getLast?.all
              (fun c => !decide (c = ' ')) = true := by
        rw [List.getLast?_concat]
        simp [value.mark_ne_space]
      rw [trimLast, source, source, ih, hText,
        Text.trimEnd_append_of_getLast? _ hLast]
      simp

/- The normal form is that of the parts. -/
theorem normalInside_source
    (x : Quoting) :
    normalInside x.source = x.folded.source := by
  have hQuotes (bare : Bare) :
      ∀ c ∈ bare.text, (!isQuote c) = true := by
    intro c hc
    have hPlain := bare.plain c hc
    simp only [isStop, decide_eq_false_iff_not, not_or] at hPlain
    simpa using hPlain.1
  induction x with
  | last bare =>
      rw [source, normalInside_eq_append,
        List.takeWhile_eq_self_iff.mpr (hQuotes bare),
        List.dropWhile_eq_nil_iff.mpr (hQuotes bare),
        normalInside, pieces]
      simp [folded, source, Bare.folded]
  | next bare value rest ih =>
      rw [source, normalInside_eq_append,
        List.takeWhile_append_of_pos (hQuotes bare),
        List.takeWhile_cons_of_neg (by simp [value.isQuote_mark]),
        List.append_nil,
        List.dropWhile_append_of_pos (hQuotes bare),
        List.dropWhile_cons_of_neg (by simp [value.isQuote_mark]),
        normalInside_value value.isQuote_mark value.not_mem, ih]
      rfl

/- The normal form of a tag keeps its quote structure. -/
theorem normalize_tag
    (x : Quoting) :
    normalize x.tag = x.normal.tag := by
  have hInside : inside x.tag = x.source := by
    simp [inside, tag]
  have hBracket : bracket x.tag = ['>'] := by
    simp [bracket, tag]
  have hNormal :
      (normalInside x.source).trim (· = ' ') =
        x.normal.source := by
    rw [normal, source_trimLast, source_trimFirst,
      normalInside_source]
    rfl
  have hTag := normalize_cons (x.source ++ ['>'])
  change normalize x.tag = _ at hTag
  rw [hTag]
  change '<' :: ((normalInside (inside x.tag)).trim (· = ' ') ++
    bracket x.tag) = _
  rw [hInside, hBracket, hNormal]
  rfl

end Quoting

end Tag

end Markup

end WebTidy

------------------------------------------------------------
-- Normal Forms Of Tags
------------------------------------------------------------

namespace WebTidy

namespace Markup

namespace Tag

/- Without spaces at the start and the end of a sequence. -/
def trimEnds
    (texts : List Text) :
    List Text :=
  (texts.modifyHead (·.dropWhile (· = ' '))).modifyLast
    (List.rdropWhile (· = ' '))

/- The last text of a sequence is that of the rest. -/
theorem modifyLast_cons
    (f : Text → Text)
    (text : Text)
    {rest : List Text}
    (h : rest ≠ []) :
    (text :: rest).modifyLast f = text :: rest.modifyLast f :=
  List.modifyLast_append_of_right_ne_nil f [text] rest h

namespace Quoting

/- The values are folded and decoded one by one. -/
theorem values_normal
    (x : Quoting) :
    x.normal.values =
      x.values.map fun value =>
        (value.1,
          CharRef.decode .attribute (value.2.fold isBlank)) := by
  have hFirst (y : Quoting) : y.trimFirst.values = y.values := by
    cases y <;> rfl
  have hLast (y : Quoting) : y.trimLast.values = y.values := by
    induction y with
    | last bare => rfl
    | next bare value rest ih =>
        rw [trimLast, values, values, ih]
  rw [normal, hLast, hFirst]
  induction x with
  | last bare => rfl
  | next bare value rest ih =>
      rw [folded, values, values, ih]
      rfl

/- The texts around them are folded, and trimmed as a whole. -/
theorem bares_normal
    (x : Quoting) :
    x.normal.bares =
      trimEnds (x.bares.map (Text.fold isBlank)) := by
  have hFirst (y : Quoting) :
      y.trimFirst.bares =
        y.bares.modifyHead (·.dropWhile (· = ' ')) := by
    cases y <;> rfl
  have hLast (y : Quoting) :
      y.trimLast.bares =
        y.bares.modifyLast (Text.trimEnd (· = ' ')) := by
    induction y with
    | last bare => rfl
    | next bare value rest ih =>
        rw [trimLast, bares, bares, ih,
          modifyLast_cons _ _ rest.bares_ne_nil]
  have hFolded :
      x.folded.bares = x.bares.map (Text.fold isBlank) := by
    induction x with
    | last bare => rfl
    | next bare value rest ih =>
        rw [folded, bares, bares, ih]
        rfl
  rw [normal, hLast, hFirst, hFolded]
  rfl

end Quoting

/- A value, and the value in its place in the normal form. -/
structure Renders
    (value written : Char × Text) :
    Prop where
  mark : written.1 = value.1
  decodes :
    ∃ folded,
      Text.Folds isBlank value.2 folded ∧
        CharRef.Decodes .attribute folded written.2

/- It is the value folded and decoded. -/
theorem renders_iff
    {value written : Char × Text} :
    Renders value written ↔
      (value.1,
        CharRef.decode .attribute
          (value.2.fold isBlank)) = written := by
  constructor
  · rintro ⟨hMark, folded, hFolds, hDecodes⟩
    rw [Text.folds_iff.mp hFolds,
      CharRef.decodes_iff.mp hDecodes, ← hMark]
  · rintro rfl
    exact ⟨rfl, _, Text.folds_fold isBlank value.2,
      CharRef.decodes_decode .attribute _⟩

/-
  The normal form of a tag that ends is a tag that ends.
  Both can be read in one way only, and the normal form has
  the same marks in the same order around the values, each
  folded and decoded; the text outside quotes is folded, and
  loses the spaces next to the brackets.
-/
theorem quoting_normalize
    {tag : Text}
    (hHead : tag.head? = some '<')
    (hEnd : endIndex? tag 0 = some (tag.length - 1)) :
    (normalize tag).head? = some '<' ∧
    endIndex? (normalize tag) 0 =
      some ((normalize tag).length - 1) ∧
    ∃ (x y : Quoting) (folded : List Text),
      (∀ z : Quoting, z.tag = tag ↔ z = x) ∧
      (∀ z : Quoting, z.tag = normalize tag ↔ z = y) ∧
      List.Forall₂ Renders x.values y.values ∧
      List.Forall₂ (Text.Folds isBlank) x.bares folded ∧
      y.bares = trimEnds folded := by
  rcases exists_quoting_iff.mpr ⟨hHead, hEnd⟩ with ⟨x, rfl⟩
  rw [x.normalize_tag]
  have hClosed := exists_quoting_iff.mp ⟨x.normal, rfl⟩
  refine ⟨hClosed.1, hClosed.2, x, x.normal, _,
    fun z => Quoting.tag_inj_iff, fun z => Quoting.tag_inj_iff,
    ?_, ?_, x.bares_normal⟩
  · rw [x.values_normal, List.forall₂_map_right_iff,
      List.forall₂_same]
    exact fun value _ => renders_iff.mpr rfl
  · rw [List.forall₂_map_right_iff, List.forall₂_same]
    exact fun text _ => Text.folds_fold isBlank text

/- A tag with brackets, quotes and references in values. -/
def looseLink :
    Text :=
  "< a  title = \"1 >\n 0 &quot;&eacute;\" b='\"'\n>".toList

theorem isQuote_double :
    isQuote '"' = true :=
  rfl

/- The link, read as texts and values. -/
def looseQuoting :
    Quoting :=
  .next ⟨" a  title = ".toList, by simp [isStop, isQuote]⟩
    ⟨'"', "1 >\n 0 &quot;&eacute;".toList, isQuote_double,
      by simp⟩
    (.next ⟨" b=".toList, by simp [isStop, isQuote]⟩
      ⟨'\'', "\"".toList, rfl, by simp⟩
      (.last ⟨"\n".toList, by simp [isStop, isQuote]⟩))

/-
  Its normal form, with the values in their marks and one
  space for each run of blanks outside them.
-/
theorem quoting_looseLink :
    (looseLink.head? = some '<' ∧
      endIndex? looseLink 0 = some (looseLink.length - 1)) ∧
    normalize looseLink =
      "<a title = \"1 > 0 &quot;é\" b='\"'>".toList ∧
    endIndex? (normalize looseLink) 0 =
      some ((normalize looseLink).length - 1) ∧
    ∃ y : Quoting,
      y.tag = normalize looseLink ∧
      y.values =
        [('"', "1 > 0 &quot;é".toList),
          ('\'', "\"".toList)] ∧
      y.bares =
        ["a title = ".toList, " b=".toList, []] := by
  have hHead : looseLink.head? = some '<' := by
    decide
  have hEnd :
      endIndex? looseLink 0 = some (looseLink.length - 1) := by
    decide +kernel
  rcases quoting_normalize hHead hEnd with
    ⟨_, hClosed, x, y, folded, hx, hy, hValues, hFolds, hBares⟩
  have hSame : looseQuoting = x := (hx looseQuoting).mp rfl
  subst hSame
  have hRendered :
      looseQuoting.values.map (fun value =>
        (value.1,
          CharRef.decode .attribute
            (value.2.fold isBlank))) = y.values := by
    rw [← List.forall₂_eq_eq_eq, List.forall₂_map_left_iff]
    exact hValues.imp fun _ _ h => renders_iff.mp h
  have hFolded :
      looseQuoting.bares.map (Text.fold isBlank) = folded := by
    rw [← List.forall₂_eq_eq_eq, List.forall₂_map_left_iff]
    exact hFolds.imp fun _ _ h => Text.folds_iff.mp h
  refine ⟨⟨hHead, hEnd⟩, ?_, hClosed, y, (hy y).mpr rfl, ?_, ?_⟩
  · decide +kernel
  · rw [← hRendered]
    decide +kernel
  · rw [hBares, ← hFolded]
    decide +kernel

end Tag

end Markup

end WebTidy
