import WebTidy.Markup.Token
import WebTidy.Proofs.Text

/-
  The shape of the tokens of a document.

  Tags, verbatim elements and comments begin with an opening
  bracket, and the last two end with a closing bracket.  So
  no such token is blank, and a verbatim element or comment
  has no blanks around it.

  Key definitions include:
    * `WebTidy.Markup.IsBracketed`
    * `WebTidy.Markup.Token.IsShaped`

  Key theorems include:
    * `WebTidy.Markup.IsBracketed.trim_eq`
    * `WebTidy.Markup.Token.isShaped_first`
    * `WebTidy.Markup.Token.isShaped_of_mem_scan`
-/

------------------------------------------------------------
-- Brackets
------------------------------------------------------------

namespace WebTidy

namespace Markup

/- A text from an opening to a closing bracket. -/
def IsBracketed
    (s : Text) :
    Prop :=
  s.head? = some '<' ∧ s.getLast? = some '>'

/- The shape of a token. -/
def Token.IsShaped :
    Token → Prop
| .tag source => source.head? = some '<'
| .text _ => True
| .verbatim source => IsBracketed source
| .comment source => IsBracketed source

/- A bracketed start of a text. -/
theorem isBracketed_take
    {s : Text}
    {n : Nat}
    (hHead : s.head? = some '<')
    (hLast : s[n]? = some '>') :
    IsBracketed (s.take (n + 1)) := by
  constructor
  · rw [List.head?_take, if_neg (by omega), hHead]
  · rw [List.take_add_one, hLast]
    exact List.getLast?_concat

/- A bracketed text has no blanks around it. -/
theorem IsBracketed.trim_eq
    {s : Text}
    (h : IsBracketed s) :
    s.trim isBlank = s := by
  rcases List.head?_eq_some_iff.mp h.1 with ⟨rest, hFirst⟩
  rcases List.getLast?_eq_some_iff.mp h.2 with ⟨init, hLast⟩
  have hStart : s.dropWhile isBlank = s := by
    rw [hFirst]
    exact List.dropWhile_cons_of_neg (by simp [isBlank])
  unfold Text.trim Text.trimEnd
  rw [hStart, hLast, List.reverse_concat,
    List.dropWhile_cons_of_neg (by simp [isBlank]),
    List.reverse_cons, List.reverse_reverse]

/- A text with an opening bracket is not blank. -/
theorem trim_ne_nil
    {s : Text}
    (h : s.head? = some '<') :
    s.trim isBlank ≠ [] := by
  rcases List.head?_eq_some_iff.mp h with ⟨rest, rfl⟩
  unfold Text.trim
  rw [List.dropWhile_cons_of_neg (by simp [isBlank]),
    Text.trimEnd_cons rest rfl]
  exact List.cons_ne_nil _ _

/- The last of some characters found behind others. -/
theorem getElem?_of_prefix_drop
    {mark s : Text}
    {n k : Nat}
    {c : Char}
    (hPrefix : mark <+: s.drop n)
    (hMark : mark[k]? = some c) :
    s[n + k]? = some c := by
  rcases hPrefix with ⟨rest, hRest⟩
  rcases List.getElem?_eq_some_iff.mp hMark with
    ⟨hInside, _⟩
  rw [← List.getElem?_drop, ← hRest,
    List.getElem?_append_left hInside, hMark]

end Markup

end WebTidy

------------------------------------------------------------
-- First Tokens
------------------------------------------------------------

namespace WebTidy

namespace Markup

/- A closed comment ends with a bracket. -/
theorem getElem?_of_commentLength?
    {s : Text}
    {n : Nat}
    (h : commentLength? s = some n) :
    ∃ k, n = k + 1 ∧ s[k]? = some '>' := by
  unfold commentLength? at h
  split at h
  · rcases Option.map_eq_some_iff.mp h with ⟨m, hm, rfl⟩
    have hPrefix := Text.prefix_of_indexOf? hm
    rw [List.drop_drop] at hPrefix
    refine ⟨4 + m + 2, by omega, ?_⟩
    exact getElem?_of_prefix_drop hPrefix rfl
  · cases h

/- A closed marker ends with a bracket. -/
theorem getElem?_of_markerLength?
    {s : Text}
    {n : Nat}
    (h : markerLength? s = some n) :
    ∃ k, n = k + 1 ∧ s[k]? = some '>' := by
  unfold markerLength? at h
  split at h
  · rcases Option.map_eq_some_iff.mp h with ⟨m, hm, rfl⟩
    have hPrefix := Text.prefix_of_indexOf? hm
    rw [List.drop_drop] at hPrefix
    refine ⟨3 + m + 1, by omega, ?_⟩
    exact getElem?_of_prefix_drop hPrefix rfl
  · cases h

/- An end tag ends with a bracket. -/
theorem getElem?_of_throughEndTag?
    {name s : Text}
    {n : Nat}
    (h : throughEndTag? name s = some n) :
    ∃ k, n = k + 1 ∧ s[k]? = some '>' := by
  induction s generalizing n with
  | nil => cases h
  | cons c rest ih =>
      unfold throughEndTag? at h
      split at h
      · rename_i m hm
        cases h
        unfold endTagLength? at hm
        simp only at hm
        split at hm
        · rename_i hFound
          cases hm
          exact ⟨_, rfl, hFound.2.2⟩
        · cases hm
      · rcases Option.map_eq_some_iff.mp h with ⟨m, hm, rfl⟩
        rcases ih hm with ⟨k, rfl, hk⟩
        exact ⟨k + 1, rfl, hk⟩

/- A verbatim element ends with a bracket. -/
theorem getElem?_of_verbatimLength?
    {s : Text}
    {n : Nat}
    (h : verbatimLength? s = some n) :
    ∃ k, n = k + 1 ∧ s[k]? = some '>' := by
  unfold verbatimLength? at h
  simp only at h
  split at h
  · rcases Option.map_eq_some_iff.mp h with ⟨m, hm, rfl⟩
    rcases getElem?_of_throughEndTag? hm with ⟨k, rfl, hk⟩
    rw [List.getElem?_drop] at hk
    exact ⟨_, by omega, hk⟩
  · cases h

namespace Token

/- The first token of a document has its shape. -/
theorem isShaped_first
    (s : Text) :
    (first s).IsShaped := by
  unfold first
  split
  · rename_i hHead
    split
    · rename_i n hn
      rcases getElem?_of_verbatimLength? hn with
        ⟨k, rfl, hk⟩
      exact isBracketed_take hHead hk
    · split
      · rename_i n hn
        have hLast : ∃ k, n = k + 1 ∧ s[k]? = some '>' := by
          rcases Option.or_eq_some_iff.mp hn with
            hComment | ⟨_, hMarker⟩
          · exact getElem?_of_commentLength? hComment
          · exact getElem?_of_markerLength? hMarker
        rcases hLast with ⟨k, rfl, hk⟩
        exact isBracketed_take hHead hk
      · split
        · rw [IsShaped, List.head?_take, if_neg (by omega),
            hHead]
        · exact hHead
  · exact trivial

/- Every token of a document has its shape. -/
theorem isShaped_of_mem_scan
    {s : Text}
    {token : Token}
    (h : token ∈ scan s) :
    token.IsShaped := by
  fun_induction scan s with
  | case1 => cases h
  | case2 c rest first ih =>
      rcases List.mem_cons.mp h with rfl | hRest
      · exact isShaped_first (c :: rest)
      · exact ih hRest

end Token

end Markup

end WebTidy
