import WebTidy.Proofs.Stylesheet.Compaction

/-
  The form of compact style sheets.

  Once the comments are gone, only spaces and semicolons are
  dropped.  A space is left where spaces separate two
  characters neither of which is punctuation, and a
  semicolon is left unless a close brace is the next visible
  character.  A text can be cut at any character that is no
  punctuation, and its parts written on their own.

  Key definitions include:
    * `WebTidy.Stylesheet.essentials`
    * `WebTidy.Stylesheet.IsCompact`
    * `WebTidy.Stylesheet.Beside`
    * `WebTidy.Stylesheet.packed`

  Key theorems include:
    * `WebTidy.Stylesheet.isChain_packed`
    * `WebTidy.Stylesheet.filter_packed`
    * `WebTidy.Stylesheet.exists_packed_append`
    * `WebTidy.Stylesheet.exists_of_packed`
    * `WebTidy.Stylesheet.isCompact_minify`
-/

------------------------------------------------------------
-- Compact Forms
------------------------------------------------------------

namespace WebTidy

namespace Stylesheet

/- Characters that can be seen. -/
def isVisible
    (c : Char) :
    Bool :=
  ¬ isSpace c

/- Visible characters but semicolons. -/
def isContent
    (c : Char) :
    Bool :=
  isVisible c ∧ c ≠ ';'

/- Visible characters but punctuation. -/
def isSolid
    (c : Char) :
    Bool :=
  isVisible c ∧ isPunctuation c = false

/-
  The visible characters of a text.  A semicolon counts
  unless the next of them is a close brace.
-/
def essentials :
    Text → Text
| [] => []
| c :: rest =>
    if isSpace c ∨
        (c = ';' ∧ rest.find? isVisible = some '}') then
      essentials rest
    else c :: essentials rest

/-
  A compact form of a text.  Its only spaces are single ones
  between two characters that are no punctuation, and they
  stand exactly where the text has spaces between the two.
-/
structure IsCompact
    (source out : Text) :
    Prop where
  space : ∀ c ∈ out, isSpace c = true → c = ' '
  single : ¬ [' ', ' '] <:+: out
  first : out.head? ≠ some ' '
  last : out.getLast? ≠ some ' '
  tight :
    ∀ c, isPunctuation c = true →
      ¬ [' ', c] <:+: out ∧ ¬ [c, ' '] <:+: out
  content :
    out.filter isContent = source.filter isContent
  visible : out.filter isVisible = essentials source
  apart :
    ∀ front c spaces d back,
      source = front ++ c :: (spaces ++ d :: back) →
      spaces.all isSpace = true →
      isSolid c = true →
      isSolid d = true →
      ∃ before behind,
        out =
          before ++ c ::
            ((if spaces = [] then [] else [' ']) ++
              d :: behind) ∧
        before.filter isVisible = essentials front ∧
        behind.filter isVisible = essentials back

end Stylesheet

end WebTidy

------------------------------------------------------------
-- Visible Characters
------------------------------------------------------------

namespace WebTidy

namespace Stylesheet

/- A solid character is no space and no punctuation. -/
theorem of_isSolid
    {c : Char}
    (h : isSolid c = true) :
    isSpace c = false ∧ isPunctuation c = false ∧
      c ≠ ';' ∧ c ≠ '}' := by
  simp only [isSolid, isVisible, decide_eq_true_eq,
    Bool.not_eq_true] at h
  refine ⟨h.1, h.2, ?_, ?_⟩
  · rintro rfl
    exact absurd h.2 (by decide)
  · rintro rfl
    exact absurd h.2 (by decide)

/- A space is not seen. -/
theorem filter_cons_space
    {c : Char}
    (t : Text)
    (hc : isSpace c = true) :
    (c :: t).filter isVisible = t.filter isVisible := by
  rw [List.filter_cons_of_neg]
  simp [isVisible, hc]

/- Every other character is. -/
theorem filter_cons_visible
    {c : Char}
    (t : Text)
    (hc : isSpace c = false) :
    (c :: t).filter isVisible = c :: t.filter isVisible := by
  rw [List.filter_cons_of_pos]
  simp [isVisible, hc]

/- The essentials, read off the visible characters. -/
theorem essentials_eq
    (t : Text) :
    essentials t = stripSemicolons (t.filter isVisible) := by
  induction t with
  | nil => rfl
  | cons c rest ih =>
      cases hc : isSpace c with
      | true =>
          rw [essentials, filter_cons_space rest hc]
          simp [hc, ih]
      | false =>
          rw [essentials, filter_cons_visible rest hc,
            stripSemicolons, List.head?_filter, ih]
          simp [hc]

/- Nothing but semicolons is missing among them. -/
theorem filter_essentials
    (t : Text) :
    (essentials t).filter isContent = t.filter isContent := by
  induction t with
  | nil => rfl
  | cons c rest ih =>
      rw [essentials]
      split
      · rename_i hDrop
        have hc : isContent c = false := by
          rcases hDrop with hSpace | ⟨rfl, _⟩
          · simp [isContent, isVisible, hSpace]
          · decide
        rw [ih, List.filter_cons_of_neg (by simp [hc])]
      · rw [List.filter_cons, List.filter_cons, ih]

/- Content is visible. -/
theorem filter_filter_isVisible
    (t : Text) :
    (t.filter isVisible).filter isContent =
      t.filter isContent := by
  rw [List.filter_filter]
  apply List.filter_congr
  intro c _
  cases hc : isVisible c <;> simp [isContent, hc]

/- The last visible character is an essential one. -/
theorem getLast?_essentials
    (t : Text) :
    (essentials t).getLast? = (t.filter isVisible).getLast? := by
  rw [essentials_eq, getLast?_stripSemicolons]

end Stylesheet

end WebTidy

------------------------------------------------------------
-- Neighbours
------------------------------------------------------------

namespace WebTidy

namespace Stylesheet

/- Characters that stand side by side in a compact form. -/
def Beside
    (a b : Char) :
    Prop :=
  (isSpace a = true → isSolid b = true) ∧
    (isSpace b = true → isSolid a = true)

/- Visible characters do. -/
theorem beside_of_visible
    {a b : Char}
    (ha : isSpace a = false)
    (hb : isSpace b = false) :
    Beside a b := by
  simp [Beside, ha, hb]

/- So do two neighbours of such a form. -/
theorem beside_of_infix
    {t : Text}
    {a b : Char}
    (hChain : t.IsChain Beside)
    (h : [a, b] <:+: t) :
    Beside a b := by
  rcases h with ⟨front, back, rfl⟩
  rw [List.append_assoc] at hChain
  exact (List.isChain_cons_cons.mp hChain.right_of_append).1

/- A dense text has such neighbours only. -/
theorem isChain_dense
    (last : Option Char)
    (spaced : Bool)
    (t : Text)
    (hLast : last.all isVisible = true) :
    (last.toList ++ dense last spaced t).IsChain Beside := by
  fun_induction dense last spaced t with
  | case1 last spaced =>
      cases last with
      | none => exact .nil
      | some p => exact .singleton p
  | case2 last spaced c rest hc ih => exact ih hLast
  | case3 last spaced c rest hc hKeep ih =>
      have hSeen : isSpace c = false := by simpa using hc
      have hRest := ih (by simp [isVisible, hSeen])
      cases last with
      | none => simp at hKeep
      | some p =>
          have hp : isSolid p = true := by
            simp only [Option.any_some, Option.all_some] at hKeep hLast
            simpa [isSolid, hLast] using hKeep.2.1
          have hcSolid : isSolid c = true := by
            simp [isSolid, isVisible, hSeen, hKeep.2.2]
          have hSpace : isSpace ' ' = true := by decide
          refine .cons_cons ⟨?_, fun _ => hp⟩
            (.cons_cons ⟨fun _ => hcSolid, ?_⟩ hRest)
          · simp [(of_isSolid hp).1]
          · simp [hSeen]
  | case4 last spaced c rest hc hDrop ih =>
      have hSeen : isSpace c = false := by simpa using hc
      have hRest := ih (by simp [isVisible, hSeen])
      cases last with
      | none => exact hRest
      | some p =>
          have hp : isSpace p = false := by
            simpa [isVisible] using hLast
          exact .cons_cons (beside_of_visible hp hSeen) hRest

/- Its spaces are plain. -/
theorem eq_space_of_mem_dense
    {last : Option Char}
    {spaced : Bool}
    {t : Text}
    {c : Char}
    (hc : c ∈ dense last spaced t)
    (hSpace : isSpace c = true) :
    c = ' ' := by
  rw [dense_eq_condense] at hc
  exact Text.eq_space_of_mem_condense hc hSpace

/- What can be seen of a text. -/
theorem filter_isVisible
    (t : Text) :
    t.filter isVisible = t.visible := by
  apply List.filter_congr
  intro c _
  simp [isVisible]

/- A text and its dense form show the same. -/
theorem filter_dense
    (last : Option Char)
    (spaced : Bool)
    (t : Text) :
    (dense last spaced t).filter isVisible =
      t.filter isVisible := by
  rw [dense_eq_condense, filter_isVisible, filter_isVisible,
    Text.visible_condense]

end Stylesheet

end WebTidy

------------------------------------------------------------
-- Dropped Semicolons
------------------------------------------------------------

namespace WebTidy

namespace Stylesheet

/- No character is new. -/
theorem stripSemicolons_sublist
    (t : Text) :
    (stripSemicolons t).Sublist t := by
  induction t with
  | nil => exact .slnil
  | cons c rest ih =>
      rw [stripSemicolons]
      split
      · exact ih.cons c
      · exact ih.cons_cons c

/- The neighbours still are those of a compact form. -/
theorem isChain_stripSemicolons
    {t : Text}
    (h : t.IsChain Beside) :
    (stripSemicolons t).IsChain Beside := by
  induction t with
  | nil => exact h
  | cons c rest ih =>
      rw [stripSemicolons]
      split
      · exact ih h.tail
      · apply List.IsChain.cons (ih h.tail)
        intro d hd
        rcases head?_stripSemicolons_cases rest with
          hSame | ⟨more, rfl, hBrace⟩
        · rw [hSame] at hd
          exact h.rel_head? hd
        · -- a space in front of the semicolon is none here
          rw [hBrace, Option.mem_some] at hd
          rw [← hd]
          have hBefore : Beside c ';' := h.rel_head? rfl
          apply beside_of_visible _ (by decide)
          cases hc : isSpace c with
          | false => rfl
          | true => exact absurd (hBefore.1 hc) (by decide)

/- The essentials of a text with such neighbours are left. -/
theorem filter_stripSemicolons
    {t : Text}
    (h : t.IsChain Beside) :
    (stripSemicolons t).filter isVisible = essentials t := by
  induction t with
  | nil => rfl
  | cons c rest ih =>
      -- no space stands between a semicolon and a brace
      have hNext (hc : c = ';') :
          rest.find? isVisible = rest.head? := by
        cases rest with
        | nil => rfl
        | cons d more =>
            have hd : isVisible d = true := by
              have hBeside : Beside c d := h.rel_head? rfl
              rw [hc] at hBeside
              cases hSpace : isSpace d with
              | false => simp [isVisible, hSpace]
              | true =>
                  exact absurd (hBeside.2 hSpace) (by decide)
            rw [List.find?_cons_of_pos hd, List.head?_cons]
      rw [stripSemicolons, essentials]
      by_cases hDrop : c = ';' ∧ rest.head? = some '}'
      · rw [if_pos hDrop, if_pos, ih h.tail]
        rw [hNext hDrop.1]
        exact Or.inr hDrop
      · rw [if_neg hDrop]
        cases hSpace : isSpace c with
        | true =>
            rw [filter_cons_space _ hSpace]
            simp [ih h.tail]
        | false =>
            have hKeep :
                ¬ (c = ';' ∧ rest.find? isVisible = some '}') := by
              rintro ⟨hc, hBrace⟩
              rw [hNext hc] at hBrace
              exact hDrop ⟨hc, hBrace⟩
            rw [filter_cons_visible _ hSpace]
            simp [hKeep, ih h.tail]

end Stylesheet

end WebTidy

------------------------------------------------------------
-- Packed Texts
------------------------------------------------------------

namespace WebTidy

namespace Stylesheet

/- What is written for a text behind a character. -/
def packed
    (last : Option Char)
    (t : Text) :
    Text :=
  stripSemicolons (dense last false t)

/- A dense text is cut at its visible characters. -/
theorem exists_dense_cut
    (last : Option Char)
    (spaced : Bool)
    (front : Text)
    {c : Char}
    (back : Text)
    (hc : isSpace c = false) :
    ∃ before,
      dense last spaced (front ++ c :: back) =
        before ++ c :: dense (some c) false back ∧
      before.filter isVisible = front.filter isVisible := by
  rcases Text.exists_condense_cut isTight last spaced front back
    hc with ⟨before, hCut, hSame⟩
  refine ⟨before, ?_, ?_⟩
  · rw [dense_eq_condense, dense_eq_condense, hCut]
  · rw [filter_isVisible, filter_isVisible, hSame]

/- Its cuts come from the text. -/
theorem exists_of_dense
    {last : Option Char}
    {spaced : Bool}
    {t before behind : Text}
    {c : Char}
    (hc : isSpace c = false)
    (h : dense last spaced t = before ++ c :: behind) :
    ∃ front back,
      t = front ++ c :: back ∧
      behind = dense (some c) false back ∧
      before.filter isVisible = front.filter isVisible := by
  rw [dense_eq_condense] at h
  rcases Text.exists_of_condense hc h with
    ⟨front, back, rfl, hBack, hSame⟩
  refine ⟨front, back, rfl, ?_, ?_⟩
  · rw [dense_eq_condense, hBack]
  · rw [filter_isVisible, filter_isVisible, hSame]

/- Where semicolons are dropped, the cuts stay cuts. -/
theorem exists_of_stripSemicolons
    {t before behind : Text}
    {c : Char}
    (hc : c ≠ '}')
    (h : stripSemicolons t = before ++ c :: behind) :
    ∃ front back,
      t = front ++ c :: back ∧
      behind = stripSemicolons back ∧
      before = stripSemicolons front ∧
      (c = ';' → back.head? ≠ some '}') := by
  induction t generalizing before with
  | nil => simp [stripSemicolons] at h
  | cons d rest ih =>
      rw [stripSemicolons] at h
      split at h
      · rename_i hDrop
        rcases ih h with ⟨front, back, rfl, hBack, rfl, hNext⟩
        refine ⟨d :: front, back, rfl, hBack, ?_, hNext⟩
        have hBrace : front.head? = some '}' := by
          cases front with
          | nil => exact absurd (Option.some.inj hDrop.2) hc
          | cons e front => exact hDrop.2
        rw [stripSemicolons, if_pos ⟨hDrop.1, hBrace⟩]
      · rename_i hKeep
        cases before with
        | nil =>
            rcases List.cons.inj h with ⟨rfl, hBehind⟩
            refine ⟨[], rest, rfl, hBehind.symm, rfl, ?_⟩
            intro hSemicolon hBrace
            exact hKeep ⟨hSemicolon, hBrace⟩
        | cons e before =>
            rcases List.cons.inj h with ⟨rfl, hMore⟩
            rcases ih hMore with
              ⟨front, back, rfl, hBack, rfl, hNext⟩
            refine ⟨d :: front, back, rfl, hBack, ?_, hNext⟩
            rw [stripSemicolons, if_neg]
            rintro ⟨hd, hBrace⟩
            apply hKeep
            refine ⟨hd, ?_⟩
            rw [List.head?_append, hBrace]
            rfl

/- Its neighbours are those of a compact form. -/
theorem isChain_packed
    {last : Option Char}
    (t : Text)
    (hLast : last.all isVisible = true) :
    (packed last t).IsChain Beside := by
  apply isChain_stripSemicolons
  exact (isChain_dense last false t hLast).right_of_append

/- What is written for a part shows its essentials. -/
theorem filter_stripSemicolons_of_dense
    {last : Option Char}
    {t before behind front : Text}
    (hLast : last.all isVisible = true)
    (hDense : dense last false t = before ++ behind)
    (hSame : before.filter isVisible = front.filter isVisible) :
    (stripSemicolons before).filter isVisible =
      essentials front := by
  have hChain :=
    (isChain_dense last false t hLast).right_of_append
  rw [hDense] at hChain
  rw [filter_stripSemicolons hChain.left_of_append,
    essentials_eq, hSame, ← essentials_eq]

/- So is what is written for the whole. -/
theorem filter_packed
    {last : Option Char}
    (t : Text)
    (hLast : last.all isVisible = true) :
    (packed last t).filter isVisible = essentials t :=
  filter_stripSemicolons_of_dense hLast
    (List.append_nil _).symm (filter_dense last false t)

/- A text is cut at a solid character. -/
theorem exists_packed_append
    (last : Option Char)
    (front : Text)
    {c : Char}
    (back : Text)
    (hLast : last.all isVisible = true)
    (hc : isSolid c = true) :
    ∃ before,
      packed last (front ++ c :: back) =
        before ++ c :: packed (some c) back ∧
      before.filter isVisible = essentials front := by
  rcases of_isSolid hc with ⟨hSpace, _, hSemicolon, hBrace⟩
  rcases exists_dense_cut last false front back hSpace with
    ⟨before, hCut, hSame⟩
  refine ⟨stripSemicolons before, ?_,
    filter_stripSemicolons_of_dense hLast hCut hSame⟩
  rw [packed, hCut, stripSemicolons_append, stripSemicolons,
    if_neg (by simp [hSemicolon]), packed]
  refine Or.inr ?_
  simpa using hBrace

/- Its cuts there come from the text. -/
theorem exists_of_packed
    {last : Option Char}
    {t before behind : Text}
    {c : Char}
    (hLast : last.all isVisible = true)
    (hc : isSolid c = true)
    (h : packed last t = before ++ c :: behind) :
    ∃ front back,
      t = front ++ c :: back ∧
      behind = packed (some c) back ∧
      before.filter isVisible = essentials front := by
  rcases of_isSolid hc with ⟨hSpace, _, _, hBrace⟩
  rcases exists_of_stripSemicolons hBrace h with
    ⟨between, after, hDense, rfl, rfl, _⟩
  rcases exists_of_dense hSpace hDense with
    ⟨front, back, rfl, rfl, hSame⟩
  exact ⟨front, back, rfl, rfl,
    filter_stripSemicolons_of_dense hLast hDense hSame⟩

/- A solid character behind another, with spaces between. -/
theorem packed_spaces_cons
    {c d : Char}
    (spaces back : Text)
    (hSpaces : spaces.all isSpace = true)
    (hc : isSolid c = true)
    (hd : isSolid d = true) :
    packed (some c) (spaces ++ d :: back) =
      (if spaces = [] then [] else [' ']) ++
        d :: packed (some d) back := by
  rcases of_isSolid hc with ⟨_, hcPunct, _, _⟩
  rcases of_isSolid hd with ⟨hdSpace, hdPunct, hdSemi, _⟩
  have hBlank : ' ' ≠ ';' := by decide
  rw [packed, dense_spaces _ _ _ hSpaces, dense]
  cases spaces with
  | nil => simp [hdSpace, stripSemicolons, hdSemi, packed]
  | cons e more =>
      simp [hdSpace, hdPunct, hcPunct, stripSemicolons, hdSemi,
        packed]

end Stylesheet

end WebTidy

------------------------------------------------------------
-- Compact Style Sheets
------------------------------------------------------------

namespace WebTidy

namespace Stylesheet

/- The compact form of a style sheet without its comments. -/
theorem minify_eq_packed
    (sheet : Text) :
    minify sheet = packed none (stripComments sheet) :=
  minify_eq sheet

/- Content is kept where comments are dropped. -/
theorem filter_minify
    (sheet : Text) :
    (minify sheet).filter isContent =
      (stripComments sheet).filter isContent := by
  rw [← filter_filter_isVisible, minify_eq_packed,
    filter_packed _ rfl, filter_essentials]

/- The spaces of a packed text are plain. -/
theorem eq_space_of_mem_packed
    {last : Option Char}
    {t : Text}
    {c : Char}
    (hc : c ∈ packed last t)
    (hSpace : isSpace c = true) :
    c = ' ' := by
  have hDense := (stripSemicolons_sublist _).subset hc
  exact eq_space_of_mem_dense hDense hSpace

/- No space stands at an end. -/
theorem isSpace_ends_packed
    (t : Text) :
    (packed none t).head?.all (!isSpace ·) = true ∧
      (packed none t).getLast?.all (!isSpace ·) = true := by
  constructor
  · exact head?_stripSemicolons (head?_dense t)
  · rw [packed, getLast?_stripSemicolons]
    exact getLast?_dense t

/-
  A style sheet has one reading without its comments.  The
  compact form has the characters of that reading without
  spaces and semicolons that end a block, and one space
  wherever spaces divide two characters that are no
  punctuation.
-/
theorem isCompact_minify
    (sheet : Text) :
    (∀ s, Strips true sheet s ↔ s = stripComments sheet) ∧
    IsCompact (stripComments sheet) (minify sheet) := by
  refine ⟨fun s => strips_iff, ?_⟩
  have hBeside {a b : Char}
      (h : [a, b] <:+: packed none (stripComments sheet)) :
      Beside a b :=
    beside_of_infix (isChain_packed _ rfl) h
  have hEnds := isSpace_ends_packed (stripComments sheet)
  have hContent := filter_minify sheet
  have hSpace : isSpace ' ' = true := by decide
  rw [minify_eq_packed] at hContent ⊢
  refine ⟨?_, ?_, ?_, ?_, ?_, hContent, filter_packed _ rfl, ?_⟩
  · exact fun c => eq_space_of_mem_packed
  · intro h
    exact absurd ((hBeside h).1 hSpace) (by decide)
  · intro h
    rw [h] at hEnds
    exact absurd hEnds.1 (by decide)
  · intro h
    rw [h] at hEnds
    exact absurd hEnds.2 (by decide)
  · intro c hc
    have hSolid : isSolid c = false := by simp [isSolid, hc]
    constructor
    · intro h
      rw [(hBeside h).1 hSpace] at hSolid
      cases hSolid
    · intro h
      rw [(hBeside h).2 hSpace] at hSolid
      cases hSolid
  · intro front c spaces d back hSource hSpaces hc hd
    rw [hSource]
    rcases exists_packed_append none front
      (spaces ++ d :: back) rfl hc with ⟨before, hCut, hSame⟩
    refine ⟨before, packed (some d) back, ?_, hSame, ?_⟩
    · rw [hCut, packed_spaces_cons _ back hSpaces hc hd]
    · apply filter_packed
      simp [isVisible, (of_isSolid hd).1]

end Stylesheet

end WebTidy
