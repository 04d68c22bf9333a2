import Mathlib.Data.List.Chain
import WebTidy.Proofs.Markup.Closer

/-
  Reading a token again in front of another text.

  A bracketed token is read again if the other text closes
  nothing that the old one leaves open.  Texts are read up
  to the next bracket, so two of them grow together.

  Key definitions include:
    * `WebTidy.Markup.Lacks`
    * `WebTidy.Markup.Token.attach`

  Key theorems include:
    * `WebTidy.Markup.Token.first_again`
    * `WebTidy.Markup.Token.scan_text_append`
    * `WebTidy.Markup.Token.scan_markup`
-/

------------------------------------------------------------
-- Verbatim Elements
------------------------------------------------------------

namespace WebTidy

namespace Markup

/- Every closing word of a text stands in another one. -/
def Lacks
    (x y : Text) :
    Prop :=
  ∀ w, Closer w → w <:+: y → w <:+: x

/- A verbatim element by its name and what follows it. -/
theorem verbatimLength?_cons
    {name : Text}
    (c : Char)
    (rest : Text)
    (hName : name.all isNameChar = true)
    (hRest : rest.head?.any isNameChar = false) :
    verbatimLength? (c :: (name ++ rest)) =
      if isVerbatim name ∧ endsName rest then
        (throughEndTag? name rest).map (· + (1 + name.length))
      else none := by
  have hRun : (name ++ rest).takeWhile isNameChar = name := by
    rw [List.takeWhile_append_of_pos
      (List.all_eq_true.mp hName)]
    cases rest with
    | nil => simp
    | cons d more =>
        rw [List.takeWhile_cons_of_neg (by simpa using hRest)]
        simp
  have hDrop :
      List.drop (1 + name.length) (c :: (name ++ rest)) =
        rest := by
    rw [Nat.add_comm]
    simp
  rw [verbatimLength?, List.drop_one, List.tail_cons, hRun,
    hDrop]

/- The name at the start of a text. -/
theorem exists_name
    (t : Text) :
    ∃ name rest : Text,
      t = name ++ rest ∧ name.all isNameChar = true ∧
        rest.head?.any isNameChar = false := by
  refine ⟨t.takeWhile isNameChar, t.dropWhile isNameChar, ?_,
    by simp, ?_⟩
  · rw [List.takeWhile_append_dropWhile]
  · have hHead := List.head?_dropWhile_not isNameChar t
    cases hRest : (t.dropWhile isNameChar).head? with
    | none => rfl
    | some c =>
        rw [hRest] at hHead
        simpa using hHead

/- A verbatim element is read again. -/
theorem verbatimLength?_take_append
    {s : Text}
    {n : Nat}
    (h : verbatimLength? s = some n)
    (more : Text) :
    verbatimLength? (s.take n ++ more) = some n := by
  cases s with
  | nil => cases h
  | cons c t =>
      rcases exists_name t with
        ⟨name, rest, rfl, hName, hRest⟩
      rw [verbatimLength?_cons c rest hName hRest] at h
      split at h
      · rename_i hOpens
        rcases Option.map_eq_some_iff.mp h with ⟨m, hm, rfl⟩
        rcases getElem?_of_throughEndTag? hm with ⟨j, rfl, _⟩
        have hHead :
            (rest.take (j + 1) ++ more).head? = rest.head? := by
          cases rest with
          | nil => cases hm
          | cons d tail => rfl
        have hTake :
            (c :: (name ++ rest)).take
                (j + 1 + (1 + name.length)) =
              c :: (name ++ rest.take (j + 1)) := by
          rw [show j + 1 + (1 + name.length) =
            (name.length + (j + 1)) + 1 by omega,
            List.take_succ_cons, List.take_length_add_append]
        rw [hTake, List.cons_append, List.append_assoc,
          verbatimLength?_cons c _ hName (by rw [hHead, hRest]),
          throughEndTag?_take_append hOpens.1 hm]
        rw [endsName] at hOpens
        rw [endsName, hHead, if_pos hOpens]
        rfl
      · cases h

/- A bracket opens no verbatim element again. -/
theorem verbatimLength?_eq_none
    {t x y : Text}
    (hLacks : Lacks x y)
    (hEnd : t.getLast? = some '>')
    (h : verbatimLength? ('<' :: (t ++ x)) = none) :
    verbatimLength? ('<' :: (t ++ y)) = none := by
  rcases exists_name t with ⟨name, rest, rfl, hName, hRest⟩
  have hSome : rest ≠ [] := by
    rintro rfl
    rw [List.append_nil] at hEnd
    have hMem :=
      List.all_eq_true.mp hName _ (List.mem_of_getLast? hEnd)
    cases hMem
  have hHead (u : Text) : (rest ++ u).head? = rest.head? := by
    rw [List.head?_append_of_ne_nil _ hSome]
  have hLast : rest.getLast? = some '>' := by
    rwa [List.getLast?_append_of_ne_nil _ hSome] at hEnd
  have hFirst (u : Text) :
      (rest ++ u).head?.any isNameChar = false := by
    rw [hHead, hRest]
  rw [List.append_assoc,
    verbatimLength?_cons '<' _ hName (hFirst _)] at h ⊢
  rw [endsName, hHead] at h ⊢
  split
  · rename_i hOpens
    rw [if_pos hOpens, Option.map_eq_none_iff,
      throughEndTag?_eq_none_iff] at h
    rw [Option.map_eq_none_iff, throughEndTag?_eq_none_iff]
    intro w hWord hInfix
    have hCloser := Closer.endTag hOpens.1 hWord
    apply h w hWord
    rcases hCloser.infix_append (Or.inl hLast) hInfix with
      hIn | hBehind
    · exact hIn.trans (List.prefix_append _ _).isInfix
    · exact (hLacks w hCloser hBehind).trans
        (List.suffix_append _ _).isInfix
  · rfl

end Markup

end WebTidy

------------------------------------------------------------
-- First Tokens
------------------------------------------------------------

namespace WebTidy

namespace Markup

/- An opening mark lies before the end of a tag. -/
theorem prefix_of_append
    {mark t x : Text}
    (hMark : '>' ∉ mark)
    (hEnd : t.getLast? = some '>')
    (h : mark <+: t ++ x) :
    mark <+: t := by
  rcases h with ⟨rest, hRest⟩
  rcases List.append_eq_append_iff.mp hRest with
    ⟨more, hMore, _⟩ | ⟨v, hSplit, _⟩
  · exact ⟨more, hMore.symm⟩
  · have hMem : '>' ∈ mark := by
      rw [hSplit]
      exact List.mem_append_left _ (List.mem_of_getLast? hEnd)
    exact absurd hMem hMark

/- What a mark opens is not closed in another text. -/
theorem indexOf?_again
    {mark w t x y : Text}
    (hMark : '>' ∉ mark)
    (hCloser : Closer w)
    (hLacks : Lacks x y)
    (hEnd : t.getLast? = some '>')
    (h :
      mark <+: t ++ x →
        Text.indexOf? w ((t ++ x).drop mark.length) = none)
    (hOpen : mark <+: t ++ y) :
    Text.indexOf? w ((t ++ y).drop mark.length) = none := by
  have hSome : w ≠ [] := by
    rcases hCloser.exists_parts with ⟨c, body, rfl, _⟩
    simp
  rcases prefix_of_append hMark hEnd hOpen with ⟨rest, rfl⟩
  have hRest : rest ≠ [] := by
    rintro rfl
    rw [List.append_nil] at hEnd
    exact hMark (List.mem_of_getLast? hEnd)
  have hLast : rest.getLast? = some '>' := by
    rwa [List.getLast?_append_of_ne_nil _ hRest] at hEnd
  have hNone := h ⟨rest ++ x, by simp⟩
  rw [List.append_assoc, List.drop_left,
    Text.indexOf?_eq_none_iff hSome] at hNone ⊢
  intro hInfix
  apply hNone
  rcases hCloser.infix_append (Or.inl hLast) hInfix with
    hIn | hBehind
  · exact hIn.trans (List.prefix_append _ _).isInfix
  · exact (hLacks w hCloser hBehind).trans
      (List.suffix_append _ _).isInfix

/- A bracket opens no comment and no marker again. -/
theorem comment_eq_none
    {t x y : Text}
    (hLacks : Lacks x y)
    (hEnd : t.getLast? = some '>')
    (h :
      (commentLength? (t ++ x)).or (markerLength? (t ++ x)) =
        none) :
    (commentLength? (t ++ y)).or (markerLength? (t ++ y)) =
      none := by
  rw [Option.or_eq_none_iff] at h ⊢
  unfold commentLength? markerLength? at h ⊢
  refine ⟨?_, ?_⟩
  · split
    · rename_i hOpen
      rw [Option.map_eq_none_iff]
      refine indexOf?_again (by decide) .comment hLacks hEnd ?_
        hOpen
      intro hOld
      have hNone := h.1
      rw [if_pos hOld, Option.map_eq_none_iff] at hNone
      exact hNone
    · rfl
  · split
    · rename_i hOpen
      rw [Option.map_eq_none_iff]
      refine indexOf?_again (by decide) .marker hLacks hEnd ?_
        hOpen
      intro hOld
      have hNone := h.2
      rw [if_pos hOld, Option.map_eq_none_iff] at hNone
      exact hNone
    · rfl

/- A mark is found again in the text up to it. -/
theorem indexOf?_take_append
    {mark s : Text}
    {n : Nat}
    (h : Text.indexOf? mark s = some n)
    (more : Text) :
    Text.indexOf? mark (s.take (n + mark.length) ++ more) =
      some n := by
  exact Text.indexOf?_append more (Text.indexOf?_take h)

/- A comment or marker is read again. -/
theorem comment_take_append
    {s : Text}
    {n : Nat}
    (h :
      (commentLength? s).or (markerLength? s) = some n)
    (more : Text) :
    (commentLength? (s.take n ++ more)).or
        (markerLength? (s.take n ++ more)) =
      some n := by
  rcases Option.or_eq_some_iff.mp h with
    hComment | ⟨_, hMarker⟩
  · unfold commentLength? at hComment
    split at hComment
    · rename_i hOpen
      rcases hOpen with ⟨body, rfl⟩
      rcases Option.map_eq_some_iff.mp hComment with
        ⟨m, hm, rfl⟩
      have hTake :
          ("<!--".toList ++ body).take (m + 7) ++ more =
            "<!--".toList ++ (body.take (m + 3) ++ more) := rfl
      have hFound : Text.indexOf? "-->".toList
          (body.take (m + 3) ++ more) = some m :=
        indexOf?_take_append hm more
      rw [hTake, commentLength?, if_pos ⟨_, rfl⟩]
      change ((Text.indexOf? "-->".toList
        (body.take (m + 3) ++ more)).map (· + 7)).or _ = _
      rw [hFound]
      rfl
    · cases hComment
  · unfold markerLength? at hMarker
    split at hMarker
    · rename_i hOpen
      rcases hOpen with ⟨body, rfl⟩
      rcases Option.map_eq_some_iff.mp hMarker with
        ⟨m, hm, rfl⟩
      have hTake :
          ("<![".toList ++ body).take (m + 5) ++ more =
            "<![".toList ++ (body.take (m + 2) ++ more) := rfl
      have hFound : Text.indexOf? "]>".toList
          (body.take (m + 2) ++ more) = some m :=
        indexOf?_take_append hm more
      have hNot :
          ¬ "<!--".toList <+:
            "<![".toList ++ (body.take (m + 2) ++ more) := by
        rintro ⟨tail, hTail⟩
        cases hTail
      rw [hTake, commentLength?, if_neg hNot, markerLength?,
        if_pos ⟨_, rfl⟩]
      change ((none : Option Nat).or
        ((Text.indexOf? "]>".toList
          (body.take (m + 2) ++ more)).map (· + 5))) = _
      rw [hFound]
      rfl
    · cases hMarker

/- The end of a tag is found in the text up to it. -/
theorem Tag.closeIndex?_take_append
    {mark : Option Char}
    {s : Text}
    {n : Nat}
    (h : closeIndex? mark s = some n)
    (more : Text) :
    closeIndex? mark (s.take (n + 1) ++ more) = some n := by
  induction s generalizing mark n with
  | nil => cases h
  | cons c rest ih =>
      rw [List.take_succ_cons, List.cons_append]
      cases mark with
      | some mark =>
          rw [closeIndex?] at h ⊢
          rcases Option.map_eq_some_iff.mp h with ⟨m, hm, rfl⟩
          rw [ih hm]
          rfl
      | none =>
          rw [closeIndex?] at h ⊢
          split at h
          · rename_i hc
            rw [if_pos hc, h]
          · rename_i hc
            rcases Option.map_eq_some_iff.mp h with ⟨m, hm, rfl⟩
            rw [if_neg hc, ih hm]
            rfl

/- The character that ends a tag. -/
theorem Tag.getElem?_closeIndex?
    {mark : Option Char}
    {s : Text}
    {n : Nat}
    (h : closeIndex? mark s = some n) :
    s[n]? = some '>' := by
  induction s generalizing mark n with
  | nil => cases h
  | cons c rest ih =>
      cases mark with
      | some mark =>
          rw [closeIndex?] at h
          rcases Option.map_eq_some_iff.mp h with ⟨m, hm, rfl⟩
          exact ih hm
      | none =>
          rw [closeIndex?] at h
          split at h
          · rename_i hc
            cases h
            rw [hc]
            rfl
          · rcases Option.map_eq_some_iff.mp h with ⟨m, hm, rfl⟩
            exact ih hm

/- A declaration opens no verbatim element. -/
theorem verbatimLength?_declaration
    (rest : Text) :
    verbatimLength? ('<' :: '!' :: rest) = none := by
  have hName :
      verbatimLength? ('<' :: ([] ++ '!' :: rest)) = none :=
    verbatimLength?_cons '<' ('!' :: rest) rfl rfl
  exact hName

namespace Token

/- How a bracketed token is read. -/
theorem first_cases
    {s : Text}
    (hHead : s.head? = some '<') :
    (∃ n, verbatimLength? s = some n ∧
      first s = .verbatim (s.take n)) ∨
    (verbatimLength? s = none ∧
      ∃ n, (commentLength? s).or (markerLength? s) = some n ∧
        first s = .comment (s.take n)) ∨
    (verbatimLength? s = none ∧
      (commentLength? s).or (markerLength? s) = none ∧
      ∃ n, Tag.endIndex? s 0 = some n ∧
        first s = .tag (s.take (n + 1))) ∨
    first s = .tag s := by
  cases hVerbatim : verbatimLength? s with
  | some n =>
      exact Or.inl ⟨n, rfl, by simp [first, hHead, hVerbatim]⟩
  | none =>
      cases hComment :
          (commentLength? s).or (markerLength? s) with
      | some n =>
          refine Or.inr (Or.inl ⟨rfl, n, rfl, ?_⟩)
          simp [first, hHead, hVerbatim, hComment]
      | none =>
          cases hEnd : Tag.endIndex? s 0 with
          | some n =>
              refine Or.inr (Or.inr (Or.inl
                ⟨rfl, rfl, n, rfl, ?_⟩))
              simp [first, hHead, hVerbatim, hComment, hEnd]
          | none =>
              refine Or.inr (Or.inr (Or.inr ?_))
              simp [first, hHead, hVerbatim, hComment, hEnd]

/- The start of a text in front of another one. -/
theorem take_take_append
    {s : Text}
    {k : Nat}
    {c : Char}
    (hHead : s.head? = some '<')
    (hLast : s[k]? = some c)
    (more : Text) :
    (s.take (k + 1) ++ more).head? = some '<' ∧
      (s.take (k + 1) ++ more).take (k + 1) =
        s.take (k + 1) := by
  rcases List.getElem?_eq_some_iff.mp hLast with ⟨hk, _⟩
  constructor
  · rcases List.head?_eq_some_iff.mp hHead with ⟨t, rfl⟩
    rfl
  · apply List.take_left'
    rw [List.length_take]
    omega

/- A verbatim element is read again. -/
theorem first_verbatim
    {s : Text}
    {n : Nat}
    (hHead : s.head? = some '<')
    (h : verbatimLength? s = some n)
    (more : Text) :
    first (s.take n ++ more) = .verbatim (s.take n) := by
  have hAgain := verbatimLength?_take_append h more
  rcases getElem?_of_verbatimLength? h with ⟨k, rfl, hk⟩
  have hTake := take_take_append hHead hk more
  rw [first, if_pos hTake.1, hAgain]
  simp only [hTake.2]

/- A comment is read again. -/
theorem first_comment
    {s : Text}
    {n : Nat}
    (hHead : s.head? = some '<')
    (h : (commentLength? s).or (markerLength? s) = some n)
    (more : Text) :
    first (s.take n ++ more) = .comment (s.take n) := by
  have hAgain := comment_take_append h more
  have hLast : ∃ k, n = k + 1 ∧ s[k]? = some '>' := by
    rcases Option.or_eq_some_iff.mp h with
      hComment | ⟨_, hMarker⟩
    · exact getElem?_of_commentLength? hComment
    · exact getElem?_of_markerLength? hMarker
  rcases hLast with ⟨k, rfl, hk⟩
  have hTake := take_take_append hHead hk more
  have hVerbatim :
      verbatimLength? (s.take (k + 1) ++ more) = none := by
    have hOpen : ∃ rest,
        s.take (k + 1) ++ more = '<' :: '!' :: rest := by
      rcases Option.or_eq_some_iff.mp hAgain with
        hComment | ⟨_, hMarker⟩
      · unfold commentLength? at hComment
        split at hComment
        · rename_i hOpen
          rcases hOpen with ⟨rest, hRest⟩
          exact ⟨_, hRest.symm⟩
        · cases hComment
      · unfold markerLength? at hMarker
        split at hMarker
        · rename_i hOpen
          rcases hOpen with ⟨rest, hRest⟩
          exact ⟨_, hRest.symm⟩
        · cases hMarker
    rcases hOpen with ⟨rest, hRest⟩
    rw [hRest]
    exact verbatimLength?_declaration rest
  rw [first, if_pos hTake.1, hVerbatim]
  simp only [hAgain, hTake.2]

/- A tag is read again. -/
theorem first_tag
    {t x y : Text}
    {n : Nat}
    (hLacks : Lacks x y)
    (hVerbatim : verbatimLength? ('<' :: (t ++ x)) = none)
    (hComment :
      (commentLength? ('<' :: (t ++ x))).or
        (markerLength? ('<' :: (t ++ x))) = none)
    (hEnd : Tag.closeIndex? none (t ++ x) = some n)
    (hLength : t.length = n + 1) :
    first ('<' :: (t ++ y)) = .tag ('<' :: t) := by
  have hTake : (t ++ x).take (n + 1) = t :=
    List.take_left' hLength
  have hLast : t.getLast? = some '>' := by
    have hClose := Tag.getElem?_closeIndex? hEnd
    rw [List.getElem?_append_left (by omega)] at hClose
    rw [List.getLast?_eq_getElem?, hLength]
    exact hClose
  have hWhole : ('<' :: t).getLast? = some '>' := by
    rw [List.getLast?_cons, hLast]
    rfl
  have hAgain := Tag.closeIndex?_take_append hEnd y
  rw [hTake] at hAgain
  have hIndex :
      Tag.endIndex? ('<' :: (t ++ y)) 0 = some (n + 1) := by
    change (Tag.closeIndex? none (t ++ y)).map (· + 1) = _
    rw [hAgain]
    rfl
  have hNone :=
    comment_eq_none (t := '<' :: t) hLacks hWhole hComment
  rw [List.cons_append] at hNone
  rw [first, if_pos (by rfl),
    verbatimLength?_eq_none hLacks hLast hVerbatim]
  simp only [hNone, hIndex]
  rw [List.take_succ_cons, List.take_left' hLength]

/- A bracketed token is read again. -/
theorem first_again
    {token : Token}
    {x y : Text}
    (hFirst : first (token.source ++ x) = token)
    (hMarkup : token.source.head? = some '<')
    (hNil : x = [] → y = [])
    (hLacks : Lacks x y) :
    first (token.source ++ y) = token := by
  rcases List.head?_eq_some_iff.mp hMarkup with ⟨t, ht⟩
  have hHead : (token.source ++ x).head? = some '<' := by
    rw [ht]
    rfl
  rcases first_cases hHead with
    ⟨n, hn, hToken⟩ | ⟨_, n, hn, hToken⟩ |
    ⟨hVerbatim, hComment, n, hn, hToken⟩ | hToken
  · have hAgain := first_verbatim hHead hn y
    rw [hFirst] at hToken
    have hSource := congrArg source hToken
    rw [source] at hSource
    rw [← hSource] at hAgain hToken
    rw [hAgain]
    exact hToken.symm
  · have hAgain := first_comment hHead hn y
    rw [hFirst] at hToken
    have hSource := congrArg source hToken
    rw [source] at hSource
    rw [← hSource] at hAgain hToken
    rw [hAgain]
    exact hToken.symm
  · rw [hFirst] at hToken
    have hSource := congrArg source hToken
    rw [source] at hSource
    rw [← hSource] at hToken
    rw [ht, List.cons_append] at hVerbatim hComment hn hSource
    rcases Option.map_eq_some_iff.mp hn with ⟨k, hk, rfl⟩
    rw [List.drop_succ_cons, List.drop_zero] at hk
    have hLength : t.length = k + 1 := by
      have hBound := Tag.closeIndex?_lt hk
      have hSame := congrArg List.length hSource
      rw [List.take_succ_cons, List.length_cons,
        List.length_cons, List.length_take] at hSame
      omega
    have hAgain := first_tag hLacks hVerbatim hComment hk hLength
    rw [ht] at hToken
    rw [ht, List.cons_append, hAgain]
    exact hToken.symm
  · rw [hFirst] at hToken
    have hSource := congrArg source hToken
    rw [source] at hSource
    have hx : x = [] := by
      simpa using hSource
    rw [hNil hx, ← hx, hFirst]

end Token

end Markup

end WebTidy

------------------------------------------------------------
-- Texts That Grow Together
------------------------------------------------------------

namespace WebTidy

namespace Markup

namespace Token

/- A token in front of others; texts grow together. -/
def attach :
    Token → List Token → List Token
| .text s, .text t :: rest => .text (s ++ t) :: rest
| .text s, rest => if s = [] then rest else .text s :: rest
| token, rest => token :: rest

/- A tag is not merged with what follows it. -/
@[simp] theorem attach_tag
    (s : Text)
    (rest : List Token) :
    attach (.tag s) rest = .tag s :: rest :=
  rfl

/- A text is read up to the next bracket. -/
theorem scan_text
    {s : Text}
    (hSome : s ≠ [])
    (hHead : s.head? ≠ some '<') :
    scan s =
      .text (s.takeWhile (· ≠ '<')) ::
        scan (s.dropWhile (· ≠ '<')) := by
  have hFirst : first s = .text (s.takeWhile (· ≠ '<')) := by
    rw [first, if_neg hHead]
  have hDrop :=
    @List.drop_left _ (s.takeWhile (· ≠ '<'))
      (s.dropWhile (· ≠ '<'))
  rw [List.takeWhile_append_dropWhile] at hDrop
  rcases List.exists_cons_of_ne_nil hSome with ⟨c, rest, rfl⟩
  rw [scan, hFirst, source, hDrop]

/- A bracketed token is read in front of another text. -/
theorem scan_markup
    {token : Token}
    {x : Text}
    (hSome : token.source ≠ [])
    (h : first (token.source ++ x) = token) :
    scan (token.source ++ x) = token :: scan x := by
  rcases List.exists_cons_of_ne_nil hSome with ⟨c, rest, hText⟩
  rw [hText, List.cons_append] at h ⊢
  rw [scan, h, hText]
  simp

/- The first token is the start of the text. -/
theorem source_first_prefix
    (s : Text) :
    (first s).source <+: s := by
  by_cases hHead : s.head? = some '<'
  · rcases first_cases hHead with
      ⟨n, _, hToken⟩ | ⟨_, n, _, hToken⟩ |
      ⟨_, _, n, _, hToken⟩ | hToken
    · rw [hToken]
      exact List.take_prefix _ _
    · rw [hToken]
      exact List.take_prefix _ _
    · rw [hToken]
      exact List.take_prefix _ _
    · rw [hToken]
      exact List.prefix_refl _
  · rw [first, if_neg hHead]
    exact List.takeWhile_prefix _

/- The first of some tokens, and the text behind it. -/
theorem exists_of_scan
    {x : Text}
    {token : Token}
    {rest : List Token}
    (h : scan x = token :: rest) :
    ∃ y,
      x = token.source ++ y ∧
      first (token.source ++ y) = token ∧ scan y = rest := by
  cases x with
  | nil =>
      rw [scan] at h
      cases h
  | cons c tail =>
      rw [scan] at h
      rcases List.cons.inj h with ⟨hToken, hRest⟩
      rcases source_first_prefix (c :: tail) with ⟨y, hy⟩
      rw [hToken] at hy hRest
      refine ⟨y, hy.symm, ?_, ?_⟩
      · rw [hy, hToken]
      · rw [← hRest, ← hy, List.drop_left]

/- What begins with a bracket is no text. -/
theorem first_ne_text
    {s : Text}
    (hHead : s.head? = some '<')
    (t : Text) :
    first s ≠ .text t := by
  rcases first_cases hHead with
    ⟨n, _, hToken⟩ | ⟨_, n, _, hToken⟩ |
    ⟨_, _, n, _, hToken⟩ | hToken
  · simp [hToken]
  · simp [hToken]
  · simp [hToken]
  · simp [hToken]

/- A text is read together with the text behind it. -/
theorem scan_text_append
    {t : Text}
    (x : Text)
    (ht : '<' ∉ t) :
    scan (t ++ x) = attach (.text t) (scan x) := by
  have hPass : ∀ c ∈ t, decide (c ≠ '<') = true := by
    intro c hc
    rw [decide_eq_true_eq]
    rintro rfl
    exact ht hc
  cases t with
  | nil =>
      rw [List.nil_append]
      cases scan x with
      | nil => rfl
      | cons token rest => cases token <;> rfl
  | cons c t =>
      have hc : c ≠ '<' := by
        rintro rfl
        exact ht (by simp)
      have hText :
          scan (c :: t ++ x) =
            .text (c :: t ++ x.takeWhile (· ≠ '<')) ::
              scan (x.dropWhile (· ≠ '<')) := by
        rw [scan_text (by simp) (by simpa using hc),
          List.takeWhile_append_of_pos hPass,
          List.dropWhile_append_of_pos hPass]
      rw [hText]
      by_cases hSome : x = []
      · subst hSome
        simp [scan, attach]
      · by_cases hHead : x.head? = some '<'
        · rcases List.head?_eq_some_iff.mp hHead with
            ⟨y, rfl⟩
          have hNot := first_ne_text hHead
          rw [scan]
          cases hFirst : first ('<' :: y) with
          | text u => exact absurd hFirst (hNot u)
          | tag u => simp [scan, hFirst, attach]
          | verbatim u => simp [scan, hFirst, attach]
          | comment u => simp [scan, hFirst, attach]
        · rw [scan_text hSome hHead, attach]

/- No text stands next to another one. -/
theorem isChain_scan
    (x : Text) :
    (scan x).IsChain
      (fun a b => ∀ s t, a = .text s → b ≠ .text t) := by
  fun_induction scan x with
  | case1 => exact .nil
  | case2 c rest token ih =>
      apply List.IsChain.cons ih
      intro next hNext s t hText
      have hHead : (c :: rest).head? ≠ some '<' := by
        intro hOpen
        exact first_ne_text hOpen s hText
      have hScan :
          scan ((c :: rest).drop token.source.length) =
            scan ((c :: rest).dropWhile (· ≠ '<')) := by
        have hWhole := scan_text (List.cons_ne_nil c rest) hHead
        rw [scan] at hWhole
        exact (List.cons.inj hWhole).2
      rw [hScan] at hNext
      have hOpen :=
        List.head?_dropWhile_not (fun d => decide (d ≠ '<'))
          (c :: rest)
      cases hRest : (c :: rest).dropWhile (· ≠ '<') with
      | nil =>
          rw [hRest, scan] at hNext
          cases hNext
      | cons d more =>
          rw [hRest] at hOpen hNext
          have hd : d = '<' := by simpa using hOpen
          rw [scan] at hNext
          cases hNext
          exact first_ne_text (by rw [hd]; rfl) t

end Token

end Markup

end WebTidy
