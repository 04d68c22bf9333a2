import WebTidy.Proofs.Markup.Inner

/-
  The tokens of a document as a partition of it.

  The tokens together are the document, none of them is
  empty, and each kind of token has a regular shape: a text
  reaches up to the next opening bracket, a tag up to its
  first closing bracket outside quotes, and a comment up to
  the first closing mark behind its opening mark.  Only the
  last token can be a tag that does not end.

  Key definitions include:
    * `WebTidy.Markup.IsPartition`

  Key theorems include:
    * `WebTidy.Markup.Token.sources_scan`
    * `WebTidy.Markup.Token.endIndex?_of_first`
    * `WebTidy.Markup.Token.closesFirst_of_first`
    * `WebTidy.Markup.isPartition_scan`
-/

------------------------------------------------------------
-- Partitions
------------------------------------------------------------

namespace WebTidy

namespace Markup

/- A partition of a document into tokens of regular shape. -/
structure IsPartition
    (document : Text)
    (tokens : List Token) :
    Prop where
  whole : sources tokens = document
  nonempty : ∀ token ∈ tokens, token.source ≠ []
  text :
    ∀ token ∈ tokens,
      (∃ t, token = .text t) ↔ token.source.head? ≠ some '<'
  plain : ∀ t, .text t ∈ tokens → '<' ∉ t
  apart : tokens.IsChain Token.IsApart
  tag :
    ∀ front t rest,
      tokens = front ++ .tag t :: rest →
        Tag.endIndex? t 0 = some (t.length - 1) ∨
        rest = [] ∧ Tag.endIndex? t 0 = none
  comment :
    ∀ t, .comment t ∈ tokens →
      Text.ClosesFirst "<!--".toList "-->".toList t ∨
      Text.ClosesFirst "<![".toList "]>".toList t

end Markup

end WebTidy

------------------------------------------------------------
-- Tokens And What Follows Them
------------------------------------------------------------

namespace WebTidy

namespace Markup

namespace Token

/- The tokens together are the document. -/
theorem sources_scan
    (s : Text) :
    sources (scan s) = s := by
  fun_induction scan s with
  | case1 => rfl
  | case2 c rest token ih =>
      rcases source_first_prefix (c :: rest) with ⟨y, hy⟩
      have hRest :
          (c :: rest).drop token.source.length = y := by
        rw [← hy]
        exact List.drop_left
      rw [sources_cons, ih, hRest]
      exact hy

/- The first token of what is left behind some tokens. -/
theorem exists_first_of_scan
    {s : Text}
    {front : List Token}
    {token : Token}
    {rest : List Token}
    (h : scan s = front ++ token :: rest) :
    ∃ y,
      first (token.source ++ y) = token ∧ scan y = rest ∧
      token.source ++ y ≠ [] := by
  induction front generalizing s with
  | nil =>
      rcases exists_of_scan h with ⟨y, hs, hFirst, hRest⟩
      refine ⟨y, hFirst, hRest, ?_⟩
      rw [← hs]
      rintro rfl
      rw [scan] at h
      cases h
  | cons other front ih =>
      rcases exists_of_scan h with ⟨y, _, _, hRest⟩
      exact ih hRest

/- The end of a tag is found in the text up to it. -/
theorem endIndex?_take
    {s : Text}
    {n : Nat}
    (h : Tag.endIndex? s 0 = some n) :
    Tag.endIndex? (s.take (n + 1)) 0 = some n ∧
      (s.take (n + 1)).length = n + 1 := by
  rcases Option.map_eq_some_iff.mp h with ⟨m, hm, rfl⟩
  cases s with
  | nil => cases hm
  | cons c rest =>
      have hBound : m < rest.length := Tag.closeIndex?_lt hm
      have hAgain :=
        Tag.closeIndex?_take_append (s := rest) hm []
      rw [List.append_nil] at hAgain
      constructor
      · change (Tag.closeIndex? none
          (rest.take (m + 1))).map (· + 1) = _
        rw [hAgain]
        rfl
      · rw [List.length_take, List.length_cons]
        omega

/- A tag ends with its last character, or not at all. -/
theorem endIndex?_of_first
    {t y : Text}
    (h : first (t ++ y) = .tag t) :
    Tag.endIndex? t 0 = some (t.length - 1) ∨
      y = [] ∧ Tag.endIndex? t 0 = none := by
  unfold first at h
  split at h
  · split at h
    · cases h
    · split at h
      · cases h
      · split at h
        · rename_i n hEnd
          have hTag := Token.tag.inj h
          have hTake := endIndex?_take hEnd
          rw [hTag] at hTake
          left
          rw [hTake.1, hTake.2]
          rfl
        · rename_i hEnd
          have hTag := Token.tag.inj h
          have hRest : y = [] := by simpa using hTag
          rw [hRest, List.append_nil] at hEnd
          exact Or.inr ⟨hRest, hEnd⟩
  · cases h

/- A comment ends with the first closing mark. -/
theorem closesFirst_of_first
    {t y : Text}
    (h : first (t ++ y) = .comment t) :
    Text.ClosesFirst "<!--".toList "-->".toList t ∨
      Text.ClosesFirst "<![".toList "]>".toList t := by
  unfold first at h
  split at h
  · split at h
    · cases h
    · split at h
      · rename_i n hLength
        have hComment := Token.comment.inj h
        rcases Option.or_eq_some_iff.mp hLength with
          hn | ⟨_, hn⟩
        · rw [← hComment]
          exact Or.inl (Text.closesFirst_take hn)
        · rw [← hComment]
          exact Or.inr (Text.closesFirst_take hn)
      · split at h
        · cases h
        · cases h
  · cases h

/- A text is read where no bracket stands. -/
theorem first_eq_text_iff
    (s : Text) :
    (∃ t, first s = .text t) ↔ s.head? ≠ some '<' := by
  constructor
  · rintro ⟨t, ht⟩ hHead
    exact first_ne_text hHead t ht
  · intro hHead
    rw [first, if_neg hHead]
    exact ⟨_, rfl⟩

end Token

end Markup

end WebTidy

------------------------------------------------------------
-- Scanning Partitions A Document
------------------------------------------------------------

namespace WebTidy

namespace Markup

/-
  The tokens of every document are a partition of it into
  tokens of regular shape.
-/
theorem isPartition_scan
    (document : Text) :
    IsPartition document (Token.scan document) := by
  have hFirst {token : Token}
      (hToken : token ∈ Token.scan document) :
      ∃ y, Token.first (token.source ++ y) = token ∧
        token.source ++ y ≠ [] := by
    rcases List.append_of_mem hToken with ⟨front, rest, h⟩
    rcases Token.exists_first_of_scan h with
      ⟨y, hFirst, _, hSome⟩
    exact ⟨y, hFirst, hSome⟩
  have hNonempty {token : Token}
      (hToken : token ∈ Token.scan document) :
      token.source ≠ [] := by
    rcases hFirst hToken with ⟨y, hFirst, hSome⟩
    have hLength := Token.length_first_pos hSome
    rw [hFirst] at hLength
    exact List.length_pos_iff.mp hLength
  refine
    { whole := Token.sources_scan document
      nonempty := fun token => hNonempty
      text := ?_
      plain := ?_
      apart := Token.isChain_scan document
      tag := ?_
      comment := ?_ }
  · intro token hToken
    rcases hFirst hToken with ⟨y, hFirst, _⟩
    have hHead :
        (token.source ++ y).head? = token.source.head? :=
      List.head?_append_of_ne_nil _ (hNonempty hToken)
    have hText := Token.first_eq_text_iff (token.source ++ y)
    rw [hFirst, hHead] at hText
    exact hText
  · intro t hText hMem
    rcases hFirst hText with ⟨y, hFirst, _⟩
    have hHead :=
      (Token.first_eq_text_iff (t ++ y)).mp ⟨t, hFirst⟩
    change Token.first (t ++ y) = .text t at hFirst
    rw [Token.first, if_neg hHead] at hFirst
    rw [← Token.text.inj hFirst] at hMem
    have hPlain := List.mem_takeWhile_imp hMem
    cases hPlain
  · intro front t rest hScan
    rcases Token.exists_first_of_scan hScan with
      ⟨y, hFirst, hRest, _⟩
    rcases Token.endIndex?_of_first hFirst with
      hEnd | ⟨rfl, hEnd⟩
    · exact Or.inl hEnd
    · rw [Token.scan] at hRest
      exact Or.inr ⟨hRest.symm, hEnd⟩
  · intro t hComment
    rcases hFirst hComment with ⟨y, hFirst, _⟩
    exact Token.closesFirst_of_first hFirst

end Markup

end WebTidy
