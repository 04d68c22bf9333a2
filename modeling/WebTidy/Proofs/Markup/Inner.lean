import WebTidy.Proofs.CharRef
import WebTidy.Proofs.Markup.Forest
import WebTidy.Proofs.Markup.Preservation
import WebTidy.Proofs.Markup.Rescan

/-
  The inside of a block on one line.

  The search for the end of a block passes over texts and
  inline tags.  On the line they stand as they are, but the
  blanks of the texts are folded, and trimmed at both ends.
  What is left is passed over in the same way, and is
  written on a line of its own without any change.

  Key definitions include:
    * `WebTidy.Text.IsFolded`
    * `WebTidy.Markup.Token.IsNeat`
    * `WebTidy.Markup.Passes`
    * `WebTidy.Markup.Squeezed`

  Key theorems include:
    * `WebTidy.Markup.findSpan_eq_some`
    * `WebTidy.Markup.Passes.findSpan_eq`
    * `WebTidy.Markup.Passes.squeezed`
    * `WebTidy.Markup.exists_squeezed`
-/

------------------------------------------------------------
-- Folded Texts
------------------------------------------------------------

namespace WebTidy

namespace Text

/- Every blank is a space, and no two stand together. -/
structure IsFolded
    (t : Text) :
    Prop where
  apart :
    t.IsChain fun c d => isBlank c = true → isBlank d = false
  space : ∀ c ∈ t, isBlank c = true → c = ' '

/- A folded text behind one more character. -/
theorem IsFolded.cons
    {c : Char}
    {t : Text}
    (h : IsFolded t)
    (hSpace : isBlank c = true → c = ' ')
    (hApart : isBlank c = true → t.head?.any isBlank = false) :
    IsFolded (c :: t) := by
  constructor
  · apply List.IsChain.cons h.apart
    intro d hd hc
    have hNext := hApart hc
    rw [hd] at hNext
    exact hNext
  · intro d hd hBlank
    rcases List.mem_cons.mp hd with rfl | hd
    · exact hSpace hBlank
    · exact h.space d hd hBlank

/- Folding leaves single spaces. -/
theorem isFolded_foldFrom
    (inRun : Bool)
    (s : Text) :
    IsFolded (s.foldFrom isBlank inRun) ∧
      (inRun = true →
        (s.foldFrom isBlank inRun).head?.any isBlank =
          false) := by
  induction s generalizing inRun with
  | nil =>
      rw [foldFrom]
      exact ⟨⟨.nil, by simp⟩, fun _ => rfl⟩
  | cons c rest ih =>
      rw [foldFrom]
      by_cases hc : isBlank c = true
      · rw [if_pos hc]
        rcases ih true with ⟨hFolded, hHead⟩
        cases inRun with
        | true => exact ⟨hFolded, hHead⟩
        | false =>
            refine ⟨?_, by simp⟩
            exact hFolded.cons (fun _ => rfl) fun _ => hHead rfl
      · rw [if_neg hc]
        rcases ih false with ⟨hFolded, _⟩
        refine ⟨?_, ?_⟩
        · exact hFolded.cons (fun hBlank => absurd hBlank hc)
            fun hBlank => absurd hBlank hc
        · intro _
          simpa using hc

/- A part of a folded text is folded. -/
theorem IsFolded.part
    {t u : Text}
    (h : IsFolded t)
    (hPart : u <:+: t) :
    IsFolded u := by
  constructor
  · exact List.IsChain.infix h.apart hPart
  · intro c hc
    exact h.space c (hPart.subset hc)

/- Folding changes nothing in a folded text. -/
theorem IsFolded.fold_eq
    {t : Text}
    (h : IsFolded t) :
    t.fold isBlank = t := by
  unfold fold
  induction t with
  | nil => rfl
  | cons c rest ih =>
      have hRest := ih (h.part (List.infix_cons
        (List.infix_refl rest)))
      rw [foldFrom]
      by_cases hc : isBlank c = true
      · have hDrop : rest.dropWhile isBlank = rest := by
          cases rest with
          | nil => rfl
          | cons d more =>
              have hd := (List.isChain_cons_cons.mp h.apart).1 hc
              rw [List.dropWhile_cons_of_neg (by simp [hd])]
        rw [if_pos hc, if_neg Bool.false_ne_true, foldFrom_true,
          hDrop, hRest, h.space c (by simp) hc]
      · rw [if_neg hc, hRest]

end Text

end WebTidy

------------------------------------------------------------
-- Neat Tokens
------------------------------------------------------------

namespace WebTidy

namespace Markup

/- The text that some tokens stand for. -/
def sources
    (tokens : List Token) :
    Text :=
  tokens.flatMap Token.source

/- The text of a list of tokens, token by token. -/
@[simp] theorem sources_cons
    (token : Token)
    (rest : List Token) :
    sources (token :: rest) = token.source ++ sources rest :=
  rfl

/- The text of one token. -/
@[simp] theorem sources_singleton
    (token : Token) :
    sources [token] = token.source := by
  exact List.append_nil _

/- The text of two lists of tokens. -/
@[simp] theorem sources_append
    (tokens more : List Token) :
    sources (tokens ++ more) = sources tokens ++ sources more := by
  exact List.flatMap_append

/-
  A tag in normal form, without blanks around it.  No block
  is closed by its own start tag.
-/
structure IsNeatTag
    (s : Text) :
    Prop where
  opens : s.head? = some '<'
  trim : s.trim isBlank = s
  normal : Tag.normalize s = s
  block :
    ∀ head, Tag.head? s = some head →
      isCollapsible head.name = true → head.selfClosing = false

/- A token that the layout writes as it is. -/
def Token.IsNeat :
    Token → Prop
| .tag s => IsNeatTag s
| .text s => '<' ∉ s ∧ CharRef.decode .text s = s
| .verbatim s => IsBracketed s ∧ isStyle (.verbatim s) = false
| .comment s => IsBracketed s

/- A neat tag has a head. -/
theorem IsNeatTag.exists_head
    {s : Text}
    (h : IsNeatTag s) :
    ∃ head, Tag.head? s = some head := by
  rcases List.head?_eq_some_iff.mp h.opens with ⟨rest, rfl⟩
  exact ⟨_, rfl⟩

/- It is written as it is. -/
theorem IsNeatTag.tagText_eq
    {s : Text}
    (h : IsNeatTag s) :
    tagText s = s := by
  rw [tagText, h.trim, h.normal]

/- It does not end with a blank. -/
theorem IsNeatTag.getLast?_all
    {s : Text}
    (h : IsNeatTag s) :
    s.getLast?.all (!isBlank ·) = true := by
  have hTrim := h.trim
  rcases List.head?_eq_some_iff.mp h.opens with ⟨rest, rfl⟩
  rw [Text.trim,
    List.dropWhile_cons_of_neg (by simp [isBlank]),
    Text.trimEnd] at hTrim
  have hLast := List.head?_dropWhile_not isBlank
    ('<' :: rest).reverse
  rw [← List.getLast?_reverse, hTrim] at hLast
  cases hEnd : ('<' :: rest).getLast? with
  | none => rfl
  | some c =>
      rw [hEnd] at hLast
      simpa using hLast

end Markup

end WebTidy

------------------------------------------------------------
-- The Search For The End
------------------------------------------------------------

namespace WebTidy

namespace Markup

/- The search for the end of a block stops at a tag. -/
def Stops
    (name : Text)
    (opened : List Text)
    (balance : Int)
    (head : Tag.Head) :
    Prop :=
  balance = 0 ∧
    (head.isEnd = true ∧
        Text.sameLetters head.name name = true ∨
      isAutoClosing name = true ∧
        impliesEnd name opened head = true)

/-
  The search passes over some tokens, with no inline element
  left open behind them.
-/
inductive Passes
    (name : Text)
    (opened : List Text) :
    Int → List Token → Prop
| nil :
    Passes name opened 0 []
| text
    {balance : Int}
    {s : Text}
    {rest : List Token}
    (hRest : Passes name opened balance rest) :
    Passes name opened balance (.text s :: rest)
| tag
    {balance : Int}
    {s : Text}
    {head : Tag.Head}
    {rest : List Token}
    (hRead : Tag.head? (s.trim isBlank) = some head)
    (hGo : ¬ Stops name opened balance head)
    (hInline : isInline head.name = true)
    (hRest :
      Passes name opened (balance + balanceOf head) rest) :
    Passes name opened balance (.tag s :: rest)

variable
  {name : Text}
  {opened : List Text}
  {balance : Int}

/- What the search does at a tag. -/
theorem findSpan_tag_cases
    (name : Text)
    (opened : List Text)
    (balance : Int)
    {s : Text}
    {head : Tag.Head}
    (rest : List Token)
    (hRead : Tag.head? (s.trim isBlank) = some head) :
    (Stops name opened balance head ∧
      ∃ ending,
        findSpan name opened balance (.tag s :: rest) =
          .ok (some ⟨[], ending⟩) ∧
        (ending = .written s ∧ head.isEnd = true ∧
            Text.sameLetters head.name name = true ∨
          ending = .implied ∧ isAutoClosing name = true)) ∨
    (¬ Stops name opened balance head ∧
      findSpan name opened balance (.tag s :: rest) =
        if isInline head.name then
          (findSpan name opened (balance + balanceOf head)
            rest).map (Option.map (.cons (.tag s)))
        else .ok none) := by
  rw [findSpan, hRead]
  simp only
  split
  · rename_i hWritten
    exact Or.inl ⟨⟨hWritten.1, Or.inl hWritten.2⟩, _, rfl,
      Or.inl ⟨rfl, hWritten.2⟩⟩
  · rename_i hOther
    split
    · rename_i hImplied
      exact Or.inl ⟨⟨hImplied.1, Or.inr hImplied.2⟩, _, rfl,
        Or.inr ⟨rfl, hImplied.2.1⟩⟩
    · rename_i hNot
      refine Or.inr ⟨?_, ?_⟩
      · rintro ⟨hZero, hEnd | hEnd⟩
        · exact hOther ⟨hZero, hEnd⟩
        · exact hNot ⟨hZero, hEnd⟩
      · rfl

/- The search finds nothing behind a tag. -/
theorem findSpan_tag_eq_none_iff
    {s : Text}
    {head : Tag.Head}
    (rest : List Token)
    (hRead : Tag.head? (s.trim isBlank) = some head) :
    findSpan name opened balance (.tag s :: rest) =
        .ok none ↔
      ¬ Stops name opened balance head ∧
        (isInline head.name = true →
          findSpan name opened (balance + balanceOf head)
            rest = .ok none) := by
  rcases findSpan_tag_cases name opened balance rest hRead with
    ⟨hStops, ending, hFound, _⟩ | ⟨hGo, hFound⟩
  · simp [hFound, hStops]
  · rw [hFound]
    cases isInline head.name with
    | false => simp [hGo]
    | true =>
        cases findSpan name opened (balance + balanceOf head)
            rest with
        | error fault => simp [Except.map]
        | ok found =>
            cases found with
            | none => simp [hGo, Except.map]
            | some span => simp [Except.map]

/- Nor is anything found behind a text. -/
theorem findSpan_text_eq_none_iff
    (s : Text)
    (rest : List Token) :
    findSpan name opened balance (.text s :: rest) =
        .ok none ↔
      findSpan name opened balance rest = .ok none := by
  rw [findSpan_text, foundBehind, if_pos (by rfl)]
  cases findSpan name opened balance rest with
  | error fault => simp [Except.map]
  | ok found =>
      cases found with
      | none => simp [Except.map]
      | some span => simp [Except.map]

/- Fewer open elements do not end a block. -/
theorem findSpan_eq_none_mono
    {fewer : List Text}
    {tokens : List Token}
    (hFewer : fewer ⊆ opened)
    (h : findSpan name opened balance tokens = .ok none) :
    findSpan name fewer balance tokens = .ok none := by
  induction tokens generalizing balance with
  | nil => rfl
  | cons token rest ih =>
      cases token with
      | verbatim s => rfl
      | comment s => rfl
      | text s =>
          rw [findSpan_text_eq_none_iff] at h ⊢
          exact ih h
      | tag s =>
          cases hRead : Tag.head? (s.trim isBlank) with
          | none =>
              rw [findSpan, hRead] at h
              cases h
          | some head =>
              rw [findSpan_tag_eq_none_iff rest hRead] at h ⊢
              refine ⟨?_, fun hInline => ih (h.2 hInline)⟩
              rintro ⟨hZero, hEnd | ⟨hAuto, hImplies⟩⟩
              · exact h.1 ⟨hZero, Or.inl hEnd⟩
              · refine h.1 ⟨hZero, Or.inr ⟨hAuto, ?_⟩⟩
                unfold impliesEnd at hImplies ⊢
                split at hImplies
                · rename_i hEnd
                  unfold isOpen at hImplies ⊢
                  rw [decide_eq_true_eq] at hImplies
                  rw [if_pos hEnd, decide_eq_true_eq]
                  exact hFewer hImplies
                · rename_i hEnd
                  rw [if_neg hEnd]
                  exact hImplies

/- How a block that is set on one line ends. -/
def Ending.Fits
    (name : Text) :
    Ending → Prop
| .written s =>
    ∃ head,
      Tag.head? (s.trim isBlank) = some head ∧
      head.isEnd = true ∧
      Text.sameLetters head.name name = true
| .implied => isAutoClosing name = true

/- What a successful search has passed over. -/
theorem findSpan_eq_some
    {tokens : List Token}
    {span : Span}
    (h : findSpan name opened balance tokens = .ok (some span)) :
    Passes name opened balance span.between ∧
    span.ending.Fits name ∧
    ∃ tail,
      tokens = span.between ++ (span.ending.tokens ++ tail) ∧
      span.ending.tokens ++ tail ≠ [] ∧
      tokens.drop span.taken = tail := by
  induction tokens generalizing balance span with
  | nil => cases h
  | cons token rest ih =>
      -- The search goes on behind a token that it passes.
      have hCons {next : Int} {found : Option Span}
          (hFound :
            findSpan name opened next rest = .ok found)
          (hSpan : found.map (.cons token) = some span)
          (hToken :
            ∀ between, Passes name opened next between →
              Passes name opened balance (token :: between)) :
          Passes name opened balance span.between ∧
          span.ending.Fits name ∧
          ∃ tail,
            token :: rest =
              span.between ++ (span.ending.tokens ++ tail) ∧
            span.ending.tokens ++ tail ≠ [] ∧
            (token :: rest).drop span.taken = tail := by
        rcases Option.map_eq_some_iff.mp hSpan with
          ⟨inner, rfl, rfl⟩
        rcases ih hFound with
          ⟨hPasses, hFits, tail, hTokens, hSome, hDrop⟩
        refine ⟨hToken _ hPasses, hFits, tail, ?_, hSome, ?_⟩
        · rw [hTokens]
          rfl
        · have hTaken :
              (inner.cons token).taken = inner.taken + 1 := by
            unfold Span.cons Span.taken
            cases inner.ending with
            | written tag => rfl
            | implied => rfl
          rw [hTaken, List.drop_succ_cons, hDrop]
      cases token with
      | verbatim s => cases h
      | comment s => cases h
      | text s =>
          rw [findSpan] at h
          cases hFound : findSpan name opened balance rest with
          | error fault =>
              rw [hFound] at h
              cases h
          | ok found =>
              rw [hFound] at h
              exact hCons hFound (Except.ok.inj h)
                fun _ => Passes.text
      | tag s =>
          cases hRead : Tag.head? (s.trim isBlank) with
          | none =>
              rw [findSpan, hRead] at h
              cases h
          | some head =>
              rcases findSpan_tag_cases name opened balance rest
                  hRead with
                ⟨hStops, ending, hFound, hWay⟩ | ⟨hGo, hFound⟩
              · rw [hFound] at h
                cases h
                rcases hStops with ⟨rfl, _⟩
                refine ⟨.nil, ?_⟩
                rcases hWay with
                  ⟨rfl, hEnd⟩ | ⟨rfl, hAuto⟩
                · exact ⟨⟨head, hRead, hEnd⟩, rest, rfl,
                    by simp [Ending.tokens], rfl⟩
                · exact ⟨hAuto, .tag s :: rest, rfl, by simp,
                    rfl⟩
              · rw [hFound] at h
                split at h
                · rename_i hInline
                  cases hMore :
                      findSpan name opened
                        (balance + balanceOf head) rest with
                  | error fault =>
                      rw [hMore] at h
                      cases h
                  | ok found =>
                      rw [hMore] at h
                      exact hCons hMore (Except.ok.inj h)
                        fun _ hRest =>
                          .tag hRead hGo hInline hRest
                · cases h

/- A search that passes over tokens finds the end tag. -/
theorem Passes.findSpan_eq
    {between : List Token}
    {s : Text}
    {head : Tag.Head}
    (h : Passes name opened balance between)
    (hRead : Tag.head? (s.trim isBlank) = some head)
    (hEnd : head.isEnd = true)
    (hName : Text.sameLetters head.name name = true)
    (tail : List Token) :
    findSpan name opened balance (between ++ .tag s :: tail) =
      .ok (some ⟨between, .written s⟩) := by
  induction h with
  | nil =>
      rw [List.nil_append, findSpan, hRead]
      simp only
      rw [if_pos ⟨trivial, hEnd, hName⟩]
  | text hRest ih =>
      rw [List.cons_append, findSpan, ih]
      rfl
  | @tag balance t other rest hOther hGo hInline hRest ih =>
      rw [List.cons_append]
      rcases findSpan_tag_cases name opened balance
          (rest ++ .tag s :: tail) hOther with
        ⟨hStops, _⟩ | ⟨_, hFound⟩
      · exact absurd hStops hGo
      · rw [hFound, if_pos hInline, ih]
        rfl

end Markup

end WebTidy

------------------------------------------------------------
-- Squeezed Tokens
------------------------------------------------------------

namespace WebTidy

namespace Markup

/- A folded text without some of the blanks around it. -/
def Kept
    (s u : Text) :
    Prop :=
  ∃ lead tail : Text,
    lead.all isBlank = true ∧ tail.all isBlank = true ∧
    s.fold isBlank = lead ++ u ++ tail

/-
  The tokens of a block as they stand on its line: blank
  texts are left out, other texts are folded.
-/
inductive Squeezed :
    List Token → List Token → Prop
| nil :
    Squeezed [] []
| tag
    {s : Text}
    {rest inner : List Token}
    (hNeat : IsNeatTag s)
    (hRest : Squeezed rest inner) :
    Squeezed (.tag s :: rest) (.tag s :: inner)
| blank
    {s : Text}
    {rest inner : List Token}
    (hBlank : s.all isBlank = true)
    (hRest : Squeezed rest inner) :
    Squeezed (.text s :: rest) inner
| text
    {s u : Text}
    {rest inner : List Token}
    (hNeat : Token.IsNeat (.text s))
    (hKept : Kept s u)
    (hSome : u ≠ [])
    (hNext : ∀ t, inner.head? ≠ some (.text t))
    (hRest : Squeezed rest inner) :
    Squeezed (.text s :: rest) (.text u :: inner)

/- Folding keeps all characters that are not blank. -/
theorem mem_of_mem_fold
    {c : Char}
    {s : Text}
    (hBlank : isBlank c = false)
    (hc : c ∈ s.fold isBlank) :
    c ∈ s := by
  have hSqueeze : c ∈ squeeze (s.fold isBlank) := by
    unfold squeeze
    rw [List.mem_filter]
    exact ⟨hc, by simp [hBlank]⟩
  rw [squeeze_fold] at hSqueeze
  exact List.mem_of_mem_filter hSqueeze

/- A text of which only blanks are kept is blank. -/
theorem Kept.all_isBlank
    {s u : Text}
    (h : Kept s u)
    (hBlank : u.all isBlank = true) :
    s.all isBlank = true := by
  rcases h with ⟨lead, tail, hLead, hTail, hFold⟩
  have hSqueeze : squeeze s = [] := by
    rw [← squeeze_fold, hFold, squeeze_append, squeeze_append,
      squeeze_eq_nil hLead, squeeze_eq_nil hBlank,
      squeeze_eq_nil hTail]
    rfl
  unfold squeeze at hSqueeze
  rw [List.filter_eq_nil_iff] at hSqueeze
  rw [List.all_eq_true]
  intro c hc
  simpa using hSqueeze c hc

/- Less is kept without the blanks at the start. -/
theorem Kept.of_blanks_append
    {s lead u : Text}
    (hLead : lead.all isBlank = true)
    (h : Kept s (lead ++ u)) :
    Kept s u := by
  rcases h with ⟨front, tail, hFront, hTail, hFold⟩
  refine ⟨front ++ lead, tail, ?_, hTail, ?_⟩
  · rw [List.all_append, hFront, hLead]
    rfl
  · rw [hFold]
    simp only [List.append_assoc]

/- Less is kept without the blanks at the end. -/
theorem Kept.of_append_blanks
    {s u tail : Text}
    (hTail : tail.all isBlank = true)
    (h : Kept s (u ++ tail)) :
    Kept s u := by
  rcases h with ⟨lead, back, hLead, hBack, hFold⟩
  refine ⟨lead, tail ++ back, hLead, ?_, ?_⟩
  · rw [List.all_append, hTail, hBack]
    rfl
  · rw [hFold]
    simp only [List.append_assoc]

variable
  {s u : Text}

/- What is kept is folded. -/
theorem Kept.isFolded
    (h : Kept s u) :
    Text.IsFolded u := by
  rcases h with ⟨lead, tail, _, _, hFold⟩
  apply (Text.isFolded_foldFrom false s).1.part
  exact ⟨lead, tail, hFold.symm⟩

/- What is kept of a neat text is neat. -/
theorem Kept.isNeat
    (h : Kept s u)
    (hNeat : Token.IsNeat (.text s)) :
    Token.IsNeat (.text u) := by
  rcases h with ⟨lead, tail, hLead, hTail, hFold⟩
  constructor
  · intro hOpen
    apply hNeat.1
    apply mem_of_mem_fold rfl
    rw [hFold]
    simp [hOpen]
  · apply CharRef.decode_of_blanks_append hLead hTail
    rw [← hFold]
    exact CharRef.decode_foldFrom false hNeat.2

/- A neat text that is kept is written as it is. -/
theorem Kept.inlineText_eq
    (h : Kept s u)
    (hNeat : Token.IsNeat (.text s)) :
    inlineText (.text u) = u := by
  rw [inlineText, (h.isNeat hNeat).2, h.isFolded.fold_eq]

/- No word is closed by what is kept alone. -/
theorem Kept.lacks
    (h : Kept s u)
    (hNeat : Token.IsNeat (.text s)) :
    Lacks s u := by
  intro w hw hWord
  rcases hw.exists_parts with
    ⟨c, body, hParts, _, _, _, _, hOpen | hBlank⟩
  · subst c
    have hMem : '<' ∈ u := hWord.subset (by simp [hParts])
    exact absurd hMem (h.isNeat hNeat).1
  · rcases h with ⟨lead, tail, _, _, hFold⟩
    apply Text.infix_of_infix_foldFrom (by simp [hParts]) hBlank
    apply hWord.trans
    exact ⟨lead, tail, hFold.symm⟩

variable
  {between inner : List Token}

/- What the tokens on a line begin with. -/
theorem Squeezed.head?_cases
    (h : Squeezed between inner) :
    inner = [] ∨ (∃ t, inner.head? = some (.text t)) ∨
      (sources inner).head? = some '<' := by
  induction h with
  | nil => exact Or.inl rfl
  | tag hNeat hRest ih =>
      apply Or.inr ∘ Or.inr
      rw [sources_cons, List.head?_append, Token.source,
        hNeat.opens]
      rfl
  | blank hBlank hRest ih => exact ih
  | text hNeat hKept hSome hNext hRest ih =>
      exact Or.inr (Or.inl ⟨_, rfl⟩)

/- The search passes over the tokens on the line. -/
theorem Passes.squeezed
    {name : Text}
    {opened : List Text}
    {balance : Int}
    (h : Passes name opened balance between)
    (hInner : Squeezed between inner) :
    Passes name opened balance inner := by
  induction hInner generalizing balance with
  | nil => exact h
  | tag hNeat hRest ih =>
      cases h with
      | tag hRead hGo hInline hMore =>
          exact .tag hRead hGo hInline (ih hMore)
  | blank hBlank hRest ih =>
      cases h with
      | text hMore => exact ih hMore
  | text hNeat hKept hSome hNext hRest ih =>
      cases h with
      | text hMore => exact .text (ih hMore)

/- The tokens on the line are written as they are. -/
theorem Squeezed.flatMap_inlineText
    (h : Squeezed between inner) :
    inner.flatMap inlineText = sources inner := by
  induction h with
  | nil => rfl
  | tag hNeat hRest ih =>
      rw [List.flatMap_cons, ih, inlineText, hNeat.tagText_eq]
      rfl
  | blank hBlank hRest ih => exact ih
  | text hNeat hKept hSome hNext hRest ih =>
      rw [List.flatMap_cons, ih, hKept.inlineText_eq hNeat]
      rfl

end Markup

end WebTidy

------------------------------------------------------------
-- The Text Of A Line
------------------------------------------------------------

namespace WebTidy

namespace Text

/- A class is trimmed behind a character outside it. -/
theorem trimEnd_append_of_any
    {p : Char → Bool}
    {t : Text}
    (s : Text)
    (h : t.any (!p ·) = true) :
    trimEnd p (s ++ t) = s ++ trimEnd p t := by
  rw [trimEnd, List.reverse_append,
    dropWhile_reverse_append s.reverse h, List.reverse_append,
    List.reverse_reverse, List.reverse_reverse]

/- A class is trimmed up to a character outside it. -/
theorem trimEnd_append_of_getLast?
    {p : Char → Bool}
    {s : Text}
    (t : Text)
    (h : s.getLast?.all (!p ·) = true) :
    trimEnd p (s ++ t) = s ++ trimEnd p t := by
  cases hAll : t.all p with
  | true =>
      have hNil : trimEnd p t = [] := by
        have hTrim := @trimEnd_append p [] t hAll rfl
        rwa [List.nil_append] at hTrim
      rw [trimEnd_append hAll h, hNil, List.append_nil]
  | false =>
      apply trimEnd_append_of_any
      rw [List.all_eq_false] at hAll
      rw [List.any_eq_true]
      rcases hAll with ⟨c, hc, hOut⟩
      exact ⟨c, hc, by simpa using hOut⟩

end Text

namespace Markup

variable
  {between inner : List Token}

/- Blanks are dropped at the start of a line. -/
theorem Squeezed.exists_dropWhile
    (h : Squeezed between inner) :
    ∃ more,
      Squeezed between more ∧
      sources more = (sources inner).dropWhile isBlank := by
  induction h with
  | nil => exact ⟨[], .nil, rfl⟩
  | @tag s rest inner hNeat hRest ih =>
      refine ⟨_, .tag hNeat hRest, ?_⟩
      rcases List.head?_eq_some_iff.mp hNeat.opens with
        ⟨t, rfl⟩
      rw [sources_cons, Token.source, List.cons_append,
        List.dropWhile_cons_of_neg (by simp [isBlank])]
  | blank hBlank hRest ih =>
      rcases ih with ⟨more, hMore, hText⟩
      exact ⟨more, .blank hBlank hMore, hText⟩
  | @text s u rest inner hNeat hKept hSome hNext hRest ih =>
      rw [sources_cons, Token.source]
      rcases Text.all_or_exists isBlank u with
        hBlank | ⟨lead, c, body, rfl, hLead, hc⟩
      · refine ⟨inner, .blank (hKept.all_isBlank hBlank) hRest,
          ?_⟩
        rw [List.dropWhile_append_of_pos
          (List.all_eq_true.mp hBlank)]
        rcases hRest.head?_cases with
          rfl | ⟨t, hText⟩ | hOpen
        · rfl
        · exact absurd hText (hNext t)
        · rcases List.head?_eq_some_iff.mp hOpen with
            ⟨more, hMore⟩
          rw [hMore,
            List.dropWhile_cons_of_neg (by simp [isBlank])]
      · have hLess : Kept s (c :: body) :=
          hKept.of_blanks_append hLead
        refine ⟨_, .text hNeat hLess (by simp) hNext hRest, ?_⟩
        rw [List.append_assoc, List.cons_append,
          Text.dropWhile_append_cons _ hLead hc]
        rfl

/- Blanks are dropped at the end of a line. -/
theorem Squeezed.exists_trimEnd
    (h : Squeezed between inner) :
    ∃ more,
      Squeezed between more ∧
      sources more = (sources inner).trimEnd isBlank ∧
      ((∀ t, inner.head? ≠ some (.text t)) →
        ∀ t, more.head? ≠ some (.text t)) := by
  induction h with
  | nil => exact ⟨[], .nil, rfl, id⟩
  | @tag s rest inner hNeat hRest ih =>
      rcases ih with ⟨more, hMore, hText, _⟩
      refine ⟨_, .tag hNeat hMore, ?_, by simp⟩
      rw [sources_cons, sources_cons, hText, Token.source,
        Text.trimEnd_append_of_getLast? _ hNeat.getLast?_all]
  | blank hBlank hRest ih =>
      rcases ih with ⟨more, hMore, hText, hHead⟩
      exact ⟨more, .blank hBlank hMore, hText, hHead⟩
  | @text s u rest inner hNeat hKept hSome hNext hRest ih =>
      rcases hRest.head?_cases with rfl | ⟨t, hText⟩ | hOpen
      · -- The text is the last token of the line.
        rcases Text.exists_trimEnd_append isBlank u with
          ⟨tail, hTail, hu⟩
        have hLess : Kept s (u.trimEnd isBlank) :=
          Kept.of_append_blanks hTail (hu ▸ hKept)
        have hTrim :
            (sources [.text u]).trimEnd isBlank =
              u.trimEnd isBlank := by
          rw [sources_cons, Token.source]
          exact congrArg _ (List.append_nil u)
        by_cases hNil : u.trimEnd isBlank = []
        · refine ⟨[], .blank (hLess.all_isBlank ?_) hRest, ?_,
            by simp⟩
          · rw [hNil]
            rfl
          · rw [hTrim, hNil]
            rfl
        · refine ⟨_, .text hNeat hLess hNil hNext hRest, ?_,
            fun hNot => absurd rfl (hNot u)⟩
          rw [hTrim]
          exact List.append_nil _
      · exact absurd hText (hNext t)
      · rcases ih with ⟨more, hMore, hText, hHead⟩
        refine ⟨_, .text hNeat hKept hSome (hHead hNext) hMore,
          ?_, fun hNot => absurd rfl (hNot u)⟩
        have hAny :
            (sources inner).any (!isBlank ·) = true := by
          rcases List.head?_eq_some_iff.mp hOpen with
            ⟨body, hBody⟩
          rw [hBody]
          rfl
        rw [sources_cons, sources_cons, hText, Token.source,
          Text.trimEnd_append_of_any u hAny]

/- No two texts stand next to each other. -/
def Token.IsApart
    (a b : Token) :
    Prop :=
  ∀ s t, a = .text s → b ≠ .text t

/- The tokens that a search passes over, folded. -/
theorem Passes.exists_folded
    {name : Text}
    {opened : List Text}
    {balance : Int}
    (h : Passes name opened balance between)
    (hNeat : ∀ token ∈ between, token.IsNeat)
    (hApart : between.IsChain Token.IsApart) :
    ∃ more,
      Squeezed between more ∧
      sources more = between.flatMap inlineText ∧
      ((∀ t, between.head? ≠ some (.text t)) →
        ∀ t, more.head? ≠ some (.text t)) := by
  induction h with
  | nil => exact ⟨[], .nil, rfl, id⟩
  | @text balance s rest hRest ih =>
      rcases ih (fun token hToken =>
          hNeat token (List.mem_cons_of_mem _ hToken))
          hApart.tail with
        ⟨more, hMore, hText, hHead⟩
      have hToken : Token.IsNeat (.text s) :=
        hNeat _ List.mem_cons_self
      have hInline : inlineText (.text s) = s.fold isBlank := by
        rw [inlineText, hToken.2]
      by_cases hNil : s = []
      · subst s
        refine ⟨more, .blank rfl hMore, ?_,
          fun hNot => absurd rfl (hNot [])⟩
        rw [hText, List.flatMap_cons, hInline]
        rfl
      · have hKept : Kept s (s.fold isBlank) :=
          ⟨[], [], rfl, rfl, by simp⟩
        have hFold : s.fold isBlank ≠ [] := by
          intro hFold
          cases s with
          | nil => exact hNil rfl
          | cons c body =>
              rw [Text.fold, Text.foldFrom] at hFold
              split at hFold
              · cases hFold
              · cases hFold
        have hNext : ∀ t, rest.head? ≠ some (.text t) := by
          intro t ht
          rcases List.head?_eq_some_iff.mp ht with ⟨_, rfl⟩
          have hPair := (List.isChain_cons_cons.mp hApart).1
          exact hPair s t rfl rfl
        refine ⟨_, .text hToken hKept hFold (hHead hNext) hMore,
          ?_, fun hNot => absurd rfl (hNot s)⟩
        rw [sources_cons, hText, List.flatMap_cons, hInline]
        rfl
  | @tag balance s head rest hRead hGo hInline hRest ih =>
      rcases ih (fun token hToken =>
          hNeat token (List.mem_cons_of_mem _ hToken))
          hApart.tail with
        ⟨more, hMore, hText, _⟩
      have hToken : IsNeatTag s := hNeat _ List.mem_cons_self
      refine ⟨_, .tag hToken hMore, ?_, by simp⟩
      rw [sources_cons, hText, List.flatMap_cons, inlineText,
        hToken.tagText_eq]
      rfl

/- The tokens on a line are the text of the line. -/
theorem Passes.exists_squeezed
    {name : Text}
    {opened : List Text}
    {balance : Int}
    (h : Passes name opened balance between)
    (hNeat : ∀ token ∈ between, token.IsNeat)
    (hApart : between.IsChain Token.IsApart) :
    ∃ inner,
      Squeezed between inner ∧
      sources inner =
        Text.trim isBlank (between.flatMap inlineText) := by
  rcases h.exists_folded hNeat hApart with
    ⟨folded, hFolded, hText, _⟩
  rcases hFolded.exists_dropWhile with
    ⟨begun, hBegun, hStart⟩
  rcases hBegun.exists_trimEnd with ⟨inner, hInner, hEnd, _⟩
  refine ⟨inner, hInner, ?_⟩
  rw [hEnd, hStart, hText, Text.trim]

end Markup

end WebTidy
