import WebTidy.Proofs.Text
import WebTidy.Stylesheet.Compact
import WebTidy.Stylesheet.Layout

/-
  The segments of a style sheet: single characters of code,
  comments, and quoted strings.

  A comment ends at its first closing mark and a string at
  its first unprotected mark; a comment or string without
  an end takes the rest of the style sheet.  The scanner
  copies both as they are.

  Key definitions include:
    * `WebTidy.Stylesheet.stringLength?`
    * `WebTidy.Stylesheet.Segment`
    * `WebTidy.Stylesheet.segments`

  Key theorems include:
    * `WebTidy.Stylesheet.segments_source`
    * `WebTidy.Stylesheet.Scanner.run_comment`
    * `WebTidy.Stylesheet.Scanner.run_quoted`
-/

------------------------------------------------------------
-- Quoted Strings
------------------------------------------------------------

namespace WebTidy

namespace Stylesheet

/- The marks around quoted strings. -/
def isMark
    (c : Char) :
    Bool :=
  c = '"' ∨ c = '\''

/-
  The length of the rest of a quoted string, closing mark
  included.  The flag tells that a backslash protects the
  first character.
-/
def quotedLength?
    (mark : Char) :
    Bool → Text → Option Nat
| _, [] => none
| true, _ :: rest =>
    (quotedLength? mark false rest).map (· + 1)
| false, c :: rest =>
    if c = '\\' then
      (quotedLength? mark true rest).map (· + 1)
    else if c = mark then some 1
    else (quotedLength? mark false rest).map (· + 1)

/- The length of the closed string at the start. -/
def stringLength? :
    Text → Option Nat
| [] => none
| c :: rest =>
    if isMark c then
      (quotedLength? c false rest).map (· + 1)
    else none

end Stylesheet

end WebTidy

------------------------------------------------------------
-- Segments
------------------------------------------------------------

namespace WebTidy

namespace Stylesheet

/-
  One segment of a style sheet.  The flag of a comment or
  string tells that it is closed.
-/
inductive Segment
| code (c : Char)
| comment (source : Text) (closed : Bool)
| quoted (source : Text) (closed : Bool)
deriving DecidableEq, Repr

/- The part of the style sheet that a segment stands for. -/
def Segment.source :
    Segment → Text
| .code c => [c]
| .comment source _ => source
| .quoted source _ => source

/- The segments of a style sheet. -/
def segments :
    Text → List Segment
| [] => []
| c :: rest =>
    if "/*".toList <+: c :: rest then
      match commentLength? (c :: rest) with
      | some n =>
          .comment ((c :: rest).take n) true ::
            segments (rest.drop (n - 1))
      | none => [.comment (c :: rest) false]
    else if isMark c then
      match stringLength? (c :: rest) with
      | some n =>
          .quoted ((c :: rest).take n) true ::
            segments (rest.drop (n - 1))
      | none => [.quoted (c :: rest) false]
    else .code c :: segments rest
termination_by s => s.length
decreasing_by
  · simp only [List.length_drop, List.length_cons]
    omega
  · simp only [List.length_drop, List.length_cons]
    omega
  · exact Nat.lt_succ_self rest.length

end Stylesheet

end WebTidy

------------------------------------------------------------
-- Closed Comments And Strings
------------------------------------------------------------

namespace WebTidy

namespace Stylesheet

/- A whole closed comment and nothing else. -/
def IsComment
    (s : Text) :
    Prop :=
  commentLength? s = some s.length

/- A whole closed string and nothing else. -/
def IsString
    (s : Text) :
    Prop :=
  stringLength? s = some s.length

/- The body of a comment and the place of its end. -/
theorem exists_of_commentLength?
    {s : Text}
    {n : Nat}
    (h : commentLength? s = some n) :
    ∃ body m,
      s = '/' :: '*' :: body ∧
      Text.indexOf? "*/".toList body = some m ∧
      n = m + 4 := by
  unfold commentLength? at h
  split at h
  · rename_i hOpen
    rcases hOpen with ⟨body, rfl⟩
    rcases Option.map_eq_some_iff.mp h with ⟨m, hm, rfl⟩
    exact ⟨body, m, rfl, hm, rfl⟩
  · cases h

/- The length of a comment by the place of its end. -/
theorem commentLength?_eq_some
    {body : Text}
    {m : Nat}
    (h : Text.indexOf? "*/".toList body = some m) :
    commentLength? ('/' :: '*' :: body) = some (m + 4) := by
  have hOpen : "/*".toList <+: '/' :: '*' :: body :=
    ⟨body, rfl⟩
  rw [commentLength?, if_pos hOpen]
  change (Text.indexOf? "*/".toList body).map _ = _
  rw [h]
  rfl

/- What follows a closed comment is not part of it. -/
theorem commentLength?_append
    {s : Text}
    {n : Nat}
    (rest : Text)
    (h : commentLength? s = some n) :
    commentLength? (s ++ rest) = some n := by
  rcases exists_of_commentLength? h with
    ⟨body, m, rfl, hEnd, rfl⟩
  exact commentLength?_eq_some
    (Text.indexOf?_append rest hEnd)

/- The comment at the start is a comment by itself. -/
theorem isComment_take
    {s : Text}
    {n : Nat}
    (h : commentLength? s = some n) :
    IsComment (s.take n) ∧ n ≤ s.length := by
  rcases exists_of_commentLength? h with
    ⟨body, m, rfl, hEnd, rfl⟩
  have hBound := Text.length_le_of_indexOf? hEnd
  have hBound : m + 2 ≤ body.length := hBound
  have hTake :
      Text.indexOf? "*/".toList (body.take (m + 2)) =
        some m :=
    Text.indexOf?_take hEnd
  constructor
  · have hLength :
        (('/' :: '*' :: body).take (m + 4)).length =
          m + 4 := by
      simp only [List.length_take, List.length_cons]
      omega
    rw [IsComment, hLength]
    exact commentLength?_eq_some hTake
  · simp only [List.length_cons]
    omega

/- A backslash escapes the character behind it, -/
theorem afterQuoted_slash
    (mark : Char) :
    Scanner.afterQuoted mark false '\\' =
      .quoted mark true := by
  simp [Scanner.afterQuoted]

/- the mark closes a string, -/
theorem afterQuoted_mark
    {mark : Char}
    (hMark : mark ≠ '\\') :
    Scanner.afterQuoted mark false mark = .code := by
  simp only [Scanner.afterQuoted, if_neg hMark, if_true]
  rfl

/- and any other character is a part of it. -/
theorem afterQuoted_other
    {mark c : Char}
    (hSlash : c ≠ '\\')
    (hMark : c ≠ mark) :
    Scanner.afterQuoted mark false c =
      .quoted mark false := by
  simp [Scanner.afterQuoted, hSlash, hMark]

/-
  A character of a string closes it, or the string goes on
  behind the character in the context that follows it.
-/
theorem quotedLength?_cons
    (mark : Char)
    (escaped : Bool)
    (c : Char) :
    (Scanner.afterQuoted mark escaped c = .code ∧
      ∀ rest,
        quotedLength? mark escaped (c :: rest) = some 1) ∨
    ∃ flag,
      Scanner.afterQuoted mark escaped c =
        .quoted mark flag ∧
      ∀ rest,
        quotedLength? mark escaped (c :: rest) =
          (quotedLength? mark flag rest).map (· + 1) := by
  cases escaped with
  | true =>
      apply Or.inr
      exact ⟨false, rfl, fun _ => rfl⟩
  | false =>
      by_cases hSlash : c = '\\'
      · apply Or.inr
        refine ⟨true, hSlash ▸ afterQuoted_slash mark, ?_⟩
        intro rest
        rw [quotedLength?, if_pos hSlash]
      · by_cases hMark : c = mark
        · subst hMark
          apply Or.inl
          refine ⟨afterQuoted_mark hSlash, ?_⟩
          intro rest
          rw [quotedLength?, if_neg hSlash, if_pos rfl]
        · apply Or.inr
          refine ⟨false, afterQuoted_other hSlash hMark, ?_⟩
          intro rest
          rw [quotedLength?, if_neg hSlash, if_neg hMark]

/- The rest of a string lies inside the text. -/
theorem quotedLength?_le
    {mark : Char}
    {escaped : Bool}
    {s : Text}
    {n : Nat}
    (h : quotedLength? mark escaped s = some n) :
    n ≤ s.length := by
  induction s generalizing escaped n with
  | nil => simp [quotedLength?] at h
  | cons c rest ih =>
      rcases quotedLength?_cons mark escaped c with
        ⟨_, hOne⟩ | ⟨flag, _, hNext⟩
      · rw [hOne] at h
        cases h
        simp
      · rw [hNext] at h
        rcases Option.map_eq_some_iff.mp h with
          ⟨m, hm, rfl⟩
        exact Nat.succ_le_succ (ih hm)

/- What follows a closed string is not part of it. -/
theorem quotedLength?_append
    {mark : Char}
    {escaped : Bool}
    {s : Text}
    {n : Nat}
    (rest : Text)
    (h : quotedLength? mark escaped s = some n) :
    quotedLength? mark escaped (s ++ rest) = some n := by
  induction s generalizing escaped n with
  | nil => simp [quotedLength?] at h
  | cons c tail ih =>
      rcases quotedLength?_cons mark escaped c with
        ⟨_, hOne⟩ | ⟨flag, _, hNext⟩
      · rw [hOne] at h
        rw [List.cons_append, hOne, h]
      · rw [hNext] at h
        rcases Option.map_eq_some_iff.mp h with
          ⟨m, hm, rfl⟩
        rw [List.cons_append, hNext, ih hm]
        rfl

/- The rest of a string is found in the text up to it. -/
theorem quotedLength?_take
    {mark : Char}
    {escaped : Bool}
    {s : Text}
    {n : Nat}
    (h : quotedLength? mark escaped s = some n) :
    quotedLength? mark escaped (s.take n) = some n := by
  induction s generalizing escaped n with
  | nil => simp [quotedLength?] at h
  | cons c tail ih =>
      rcases quotedLength?_cons mark escaped c with
        ⟨_, hOne⟩ | ⟨flag, _, hNext⟩
      · rw [hOne] at h
        cases h
        exact hOne _
      · rw [hNext] at h
        rcases Option.map_eq_some_iff.mp h with
          ⟨m, hm, rfl⟩
        rw [List.take_succ_cons, hNext, ih hm]
        rfl

/- The rest of a string after its opening mark. -/
theorem exists_of_stringLength?
    {s : Text}
    {n : Nat}
    (h : stringLength? s = some n) :
    ∃ mark rest m,
      s = mark :: rest ∧ isMark mark = true ∧
      quotedLength? mark false rest = some m ∧
      n = m + 1 := by
  cases s with
  | nil => simp [stringLength?] at h
  | cons mark rest =>
      rw [stringLength?] at h
      split at h
      · rename_i hMark
        rcases Option.map_eq_some_iff.mp h with
          ⟨m, hm, rfl⟩
        exact ⟨mark, rest, m, rfl, hMark, hm, rfl⟩
      · cases h

/- What follows a closed string is not part of it. -/
theorem stringLength?_append
    {s : Text}
    {n : Nat}
    (rest : Text)
    (h : stringLength? s = some n) :
    stringLength? (s ++ rest) = some n := by
  rcases exists_of_stringLength? h with
    ⟨mark, body, m, rfl, hMark, hEnd, rfl⟩
  rw [List.cons_append, stringLength?, if_pos hMark,
    quotedLength?_append rest hEnd]
  rfl

/- The string at the start is a string by itself. -/
theorem isString_take
    {s : Text}
    {n : Nat}
    (h : stringLength? s = some n) :
    IsString (s.take n) ∧ n ≤ s.length := by
  rcases exists_of_stringLength? h with
    ⟨mark, body, m, rfl, hMark, hEnd, rfl⟩
  have hBound := quotedLength?_le hEnd
  constructor
  · have hLength :
        ((mark :: body).take (m + 1)).length = m + 1 := by
      simp only [List.length_take, List.length_cons]
      omega
    rw [IsString, hLength, List.take_succ_cons,
      stringLength?, if_pos hMark,
      quotedLength?_take hEnd]
    rfl
  · simp only [List.length_cons]
    omega

/- A closed comment ends with a slash. -/
theorem IsComment.eq_append
    {k : Text}
    (h : IsComment k) :
    ∃ front, k = front ++ ['/'] := by
  rcases exists_of_commentLength? h with
    ⟨body, m, rfl, hEnd, hLength⟩
  have hDrop : "*/".toList = body.drop m := by
    apply (Text.prefix_of_indexOf? hEnd).eq_of_length
    have hTwo : "*/".toList.length = 2 := rfl
    simp only [List.length_cons, List.length_drop]
      at hLength ⊢
    omega
  have hBody : body = body.take m ++ ['*', '/'] := by
    calc
      body = body.take m ++ body.drop m :=
        (List.take_append_drop m body).symm
      _ = body.take m ++ ['*', '/'] := by
        rw [← hDrop]
        rfl
  refine ⟨'/' :: '*' :: (body.take m ++ ['*']), ?_⟩
  rw [List.cons_append, List.cons_append, List.append_assoc]
  exact congrArg ('/' :: '*' :: ·) hBody

/- The rest of a closed string ends with the mark. -/
theorem eq_append_of_quotedLength?
    {mark : Char}
    {escaped : Bool}
    {t : Text}
    (h : quotedLength? mark escaped t = some t.length) :
    ∃ front, t = front ++ [mark] := by
  induction t generalizing escaped with
  | nil => simp [quotedLength?] at h
  | cons c rest ih =>
      rcases quotedLength?_cons mark escaped c with
        ⟨hAfter, hOne⟩ | ⟨flag, _, hNext⟩
      · rw [hOne] at h
        have hRest : rest = [] := by
          simpa using h.symm
        have hMark : c = mark := by
          unfold Scanner.afterQuoted at hAfter
          grind
        refine ⟨[], ?_⟩
        rw [hRest, hMark]
        rfl
      · rw [hNext] at h
        rcases Option.map_eq_some_iff.mp h with
          ⟨m, hm, hSucc⟩
        have hLength : m = rest.length := by
          simpa using hSucc
        rcases ih (hLength ▸ hm) with ⟨front, rfl⟩
        exact ⟨c :: front, rfl⟩

/- A closed string ends with a mark. -/
theorem IsString.eq_append
    {k : Text}
    (h : IsString k) :
    ∃ front mark,
      k = front ++ [mark] ∧ isMark mark = true := by
  rcases exists_of_stringLength? h with
    ⟨mark, body, m, rfl, hMark, hEnd, hLength⟩
  have hBody : m = body.length := by
    simpa using hLength.symm
  rcases eq_append_of_quotedLength? (hBody ▸ hEnd) with
    ⟨front, rfl⟩
  exact ⟨mark :: front, mark, rfl, hMark⟩

/- Marks are neither blanks nor semicolons. -/
theorem isBlank_and_ne_of_isMark
    {c : Char}
    (h : isMark c = true) :
    isBlank c = false ∧ c ≠ ';' := by
  simp only [isMark, decide_eq_true_eq] at h
  rcases h with rfl | rfl <;> decide

/-
  Blanks at the end do not end a comment or a string.  This
  holds of every measure that looks at a start of the text
  that ends with another character.
-/
theorem length?_trimEnd
    {length? : Text → Option Nat}
    (hAppend :
      ∀ s n rest, length? s = some n →
        length? (s ++ rest) = some n)
    (hTake :
      ∀ s n, length? s = some n →
        length? (s.take n) = some n ∧
        ∃ front c, s.take n = front ++ [c] ∧
          isBlank c = false)
    {k : Text}
    (h : length? k = none) :
    length? (k.trimEnd isBlank ++ ['\n']) = none := by
  rcases Text.exists_trimEnd_append isBlank k with
    ⟨tail, _, hk⟩
  generalize k.trimEnd isBlank = kept at hk ⊢
  cases hLength : length? (kept ++ ['\n']) with
  | none => rfl
  | some n =>
      rcases hTake _ _ hLength with
        ⟨hStart, front, c, hEnd, hc⟩
      by_cases hShort : n ≤ kept.length
      · rw [List.take_append_of_le_length hShort] at hStart
        have hLong :=
          hAppend _ _ (kept.drop n ++ tail) hStart
        rw [← List.append_assoc, List.take_append_drop, ← hk,
          h] at hLong
        exact hLong.symm
      · rw [List.take_of_length_le (by simp; omega)] at hEnd
        have hLast := (List.append_inj' hEnd rfl).2
        cases hLast
        cases hc

/- A comment without blanks at its end is still open. -/
theorem prefix_trimEnd
    {k : Text}
    (h : "/*".toList <+: k) :
    "/*".toList <+: k.trimEnd isBlank ++ ['\n'] := by
  rcases h with ⟨body, rfl⟩
  change
    _ <+: Text.trimEnd isBlank ('/' :: '*' :: body) ++ ['\n']
  rw [Text.trimEnd_cons _ rfl, Text.trimEnd_cons _ rfl]
  exact ⟨_, rfl⟩

/- So is a string. -/
theorem trimEnd_mark_cons
    {mark : Char}
    (body : Text)
    (h : isMark mark = true) :
    Text.trimEnd isBlank (mark :: body) ++ ['\n'] =
      mark :: (body.trimEnd isBlank ++ ['\n']) := by
  rw [Text.trimEnd_cons _ (isBlank_and_ne_of_isMark h).1]
  rfl

/- A comment without an end has none after its layout. -/
theorem commentLength?_trimEnd
    {k : Text}
    (h : commentLength? k = none) :
    commentLength? (k.trimEnd isBlank ++ ['\n']) = none := by
  refine length?_trimEnd ?_ ?_ h
  · intro s n rest
    exact commentLength?_append rest
  · intro s n hLength
    have hTake := isComment_take hLength
    rcases hTake.1.eq_append with ⟨front, hFront⟩
    refine ⟨?_, front, '/', hFront, rfl⟩
    rw [hTake.1, List.length_take_of_le hTake.2]

/- A string without an end has none after its layout. -/
theorem stringLength?_trimEnd
    {k : Text}
    (h : stringLength? k = none) :
    stringLength? (k.trimEnd isBlank ++ ['\n']) = none := by
  refine length?_trimEnd ?_ ?_ h
  · intro s n rest
    exact stringLength?_append rest
  · intro s n hLength
    have hTake := isString_take hLength
    rcases hTake.1.eq_append with
      ⟨front, mark, hFront, hMark⟩
    refine ⟨?_, front, mark, hFront,
      (isBlank_and_ne_of_isMark hMark).1⟩
    rw [hTake.1, List.length_take_of_le hTake.2]

end Stylesheet

end WebTidy

------------------------------------------------------------
-- Segments Of Joined Texts
------------------------------------------------------------

namespace WebTidy

namespace Stylesheet

/- A character of code is a segment of its own. -/
theorem segments_code
    {c : Char}
    {rest : Text}
    (hComment : ¬ (c = '/' ∧ rest.head? = some '*'))
    (hMark : isMark c = false) :
    segments (c :: rest) = .code c :: segments rest := by
  have hOpen : ¬ "/*".toList <+: c :: rest := by
    rintro ⟨tail, hTail⟩
    have hTail : '/' :: '*' :: tail = c :: rest := hTail
    injection hTail with hSlash hRest
    apply hComment
    rw [← hSlash, ← hRest]
    exact ⟨rfl, rfl⟩
  rw [segments, if_neg hOpen, hMark]
  rfl

/- So are several that begin no comment and no string. -/
theorem segments_codes
    {t : Text}
    (rest : Text)
    (h : ∀ c ∈ t, c ≠ '/' ∧ isMark c = false) :
    segments (t ++ rest) = t.map .code ++ segments rest := by
  induction t with
  | nil => rfl
  | cons c more ih =>
      have hc := h c List.mem_cons_self
      have hMore :=
        ih fun d hd => h d (List.mem_cons_of_mem c hd)
      rw [List.cons_append,
        segments_code (by simp [hc.1]) hc.2, hMore]
      rfl

/- Blanks are segments of their own. -/
theorem segments_blanks
    {blanks : Text}
    (rest : Text)
    (h : blanks.all isBlank = true) :
    segments (blanks ++ rest) =
      blanks.map .code ++ segments rest := by
  apply segments_codes
  intro c hc
  have hBlank := List.all_eq_true.mp h c hc
  simp only [isBlank, decide_eq_true_eq] at hBlank
  rcases hBlank with rfl | rfl | rfl | rfl | rfl <;> decide

/- A closed comment is a segment of its own. -/
theorem segments_comment
    {k : Text}
    (rest : Text)
    (h : IsComment k) :
    segments (k ++ rest) =
      .comment k true :: segments rest := by
  have hLength := commentLength?_append rest h
  rcases exists_of_commentLength? h with
    ⟨body, m, rfl, _, _⟩
  have hOpen :
      "/*".toList <+: '/' :: ('*' :: body ++ rest) :=
    ⟨body ++ rest, rfl⟩
  rw [List.cons_append] at hLength ⊢
  rw [segments, if_pos hOpen, hLength]
  simp

/- A closed string is a segment of its own. -/
theorem segments_string
    {k : Text}
    (rest : Text)
    (h : IsString k) :
    segments (k ++ rest) =
      .quoted k true :: segments rest := by
  have hLength := stringLength?_append rest h
  rcases exists_of_stringLength? h with
    ⟨mark, body, m, rfl, hMark, _, _⟩
  have hOpen :
      ¬ "/*".toList <+: mark :: (body ++ rest) := by
    rintro ⟨tail, hTail⟩
    have hTail :
        '/' :: '*' :: tail = mark :: (body ++ rest) := hTail
    injection hTail with hSlash _
    subst hSlash
    cases hMark
  rw [List.cons_append] at hLength ⊢
  rw [segments, if_neg hOpen, if_pos hMark, hLength]
  simp

/- A comment without an end is the last segment. -/
theorem segments_comment_open
    {k : Text}
    (hOpen : "/*".toList <+: k)
    (h : commentLength? k = none) :
    segments k = [.comment k false] := by
  cases k with
  | nil => simp at hOpen
  | cons c rest => rw [segments, if_pos hOpen, h]

/- A string without an end is the last segment. -/
theorem segments_string_open
    {mark : Char}
    {rest : Text}
    (hMark : isMark mark = true)
    (h : stringLength? (mark :: rest) = none) :
    segments (mark :: rest) =
      [.quoted (mark :: rest) false] := by
  have hOpen : ¬ "/*".toList <+: mark :: rest := by
    rintro ⟨tail, hTail⟩
    have hTail : '/' :: '*' :: tail = mark :: rest := hTail
    injection hTail with hSlash _
    subst hSlash
    cases hMark
  rw [segments, if_neg hOpen, if_pos hMark, h]

/- The segments together are the style sheet. -/
theorem segments_source
    (s : Text) :
    (segments s).flatMap Segment.source = s := by
  fun_induction segments s with
  | case1 => rfl
  | case2 c rest hOpen n hn ih =>
      have hPos : 0 < n := by
        rcases exists_of_commentLength? hn with
          ⟨_, m, _, _, rfl⟩
        omega
      rw [List.flatMap_cons, ih, Segment.source]
      cases n with
      | zero => cases hPos
      | succ n => simp
  | case3 c rest hOpen hn => simp [Segment.source]
  | case4 c rest hOpen hMark n hn ih =>
      have hPos : 0 < n := by
        rcases exists_of_stringLength? hn with
          ⟨_, _, m, _, _, _, rfl⟩
        omega
      rw [List.flatMap_cons, ih, Segment.source]
      cases n with
      | zero => cases hPos
      | succ n => simp
  | case5 c rest hOpen hMark hn => simp [Segment.source]
  | case6 c rest hOpen hMark ih =>
      rw [List.flatMap_cons, ih]
      rfl

end Stylesheet

end WebTidy

------------------------------------------------------------
-- Copying
------------------------------------------------------------

namespace WebTidy

namespace Stylesheet

namespace Scanner

/- A scanner that has copied a text into its output. -/
def copied
    (s : Scanner)
    (t : Text)
    (context : Context) :
    Scanner :=
  { s with
    written := t.reverse ++ s.written
    before := t.getLast?.or s.before
    context := context }

/- Copying nothing changes nothing but the context. -/
@[simp] theorem copied_nil
    (s : Scanner)
    (context : Context) :
    s.copied [] context = { s with context := context } := by
  rfl

/- Copying a text character by character. -/
@[simp] theorem copied_copied
    (s : Scanner)
    (t u : Text)
    (first second : Context) :
    (s.copied t first).copied u second =
      s.copied (t ++ u) second := by
  cases hLast : u.getLast? <;>
    simp [copied, List.getLast?_append, hLast]

/- A step inside a comment copies the character. -/
theorem step_comment
    {s : Scanner}
    {star : Bool}
    (c : Char)
    (rest : Text)
    (hContext : s.context = .comment star) :
    s.step c rest =
      s.copied [c]
        (if star ∧ c = '/' then .code
          else .comment (c = '*')) := by
  simp [step, read, hContext, copied, write]

/- A step inside a string copies the character. -/
theorem step_quoted
    {s : Scanner}
    {mark : Char}
    {escaped : Bool}
    (c : Char)
    (rest : Text)
    (hContext : s.context = .quoted mark escaped) :
    s.step c rest =
      s.copied [c] (afterQuoted mark escaped c) := by
  simp [step, read, hContext, copied, write]

/- Without a closing mark, a slash follows no asterisk. -/
theorem head?_ne_slash
    {c : Char}
    {rest : Text}
    (hPrefix : ¬ "*/".toList <+: c :: rest)
    (hAsterisk : decide (c = '*') = true) :
    rest.head? ≠ some '/' := by
  intro hSlash
  apply hPrefix
  cases rest with
  | nil => cases hSlash
  | cons d tail =>
      cases hSlash
      rw [of_decide_eq_true hAsterisk]
      exact ⟨tail, rfl⟩

/-
  A comment is copied up to its end.  An asterisk read just
  before the text must not close the comment already.
-/
theorem run_comment
    {s : Scanner}
    {star : Bool}
    {t : Text}
    {n : Nat}
    (hContext : s.context = .comment star)
    (hStar : star = true → t.head? ≠ some '/')
    (hEnd : Text.indexOf? "*/".toList t = some n) :
    run s t =
      run (s.copied (t.take (n + 2)) .code)
        (t.drop (n + 2)) := by
  induction t generalizing s star n with
  | nil => cases hEnd
  | cons c rest ih =>
      have hNotClosed : ¬ (star = true ∧ c = '/') := by
        rintro ⟨hTrue, rfl⟩
        exact hStar hTrue rfl
      rw [run, step_comment c rest hContext,
        if_neg hNotClosed]
      unfold Text.indexOf? at hEnd
      split at hEnd
      · rename_i hPrefix
        cases hEnd
        rcases hPrefix with ⟨tail, hTail⟩
        have hTail : '*' :: '/' :: tail = c :: rest := hTail
        injection hTail with hAsterisk hSlash
        subst hAsterisk hSlash
        rw [run, step_comment '/' tail rfl]
        simp
      · rename_i hPrefix
        rcases Option.map_eq_some_iff.mp hEnd with
          ⟨m, hm, rfl⟩
        rw [ih rfl (head?_ne_slash hPrefix) hm,
          copied_copied]
        rfl

/- A comment without an end is copied as a whole. -/
theorem run_comment_open
    {s : Scanner}
    {star : Bool}
    {t : Text}
    (hContext : s.context = .comment star)
    (hStar : star = true → t.head? ≠ some '/')
    (hEnd : Text.indexOf? "*/".toList t = none) :
    ∃ last, run s t = s.copied t (.comment last) := by
  induction t generalizing s star with
  | nil =>
      refine ⟨star, ?_⟩
      rw [copied_nil, ← hContext]
      rfl
  | cons c rest ih =>
      have hNotClosed : ¬ (star = true ∧ c = '/') := by
        rintro ⟨hTrue, rfl⟩
        exact hStar hTrue rfl
      rw [run, step_comment c rest hContext,
        if_neg hNotClosed]
      unfold Text.indexOf? at hEnd
      split at hEnd
      · cases hEnd
      · rename_i hPrefix
        have hNone := Option.map_eq_none_iff.mp hEnd
        rcases ih (s := s.copied [c] _) rfl
            (head?_ne_slash hPrefix) hNone with
          ⟨last, hRun⟩
        refine ⟨last, ?_⟩
        rw [hRun, copied_copied]
        rfl

/- A string is copied up to its end. -/
theorem run_quoted
    {s : Scanner}
    {mark : Char}
    {escaped : Bool}
    {t : Text}
    {n : Nat}
    (hContext : s.context = .quoted mark escaped)
    (hEnd : quotedLength? mark escaped t = some n) :
    run s t =
      run (s.copied (t.take n) .code) (t.drop n) := by
  induction t generalizing s escaped n with
  | nil => simp [quotedLength?] at hEnd
  | cons c rest ih =>
      rw [run, step_quoted c rest hContext]
      rcases quotedLength?_cons mark escaped c with
        ⟨hAfter, hOne⟩ | ⟨flag, hAfter, hNext⟩
      · rw [hOne] at hEnd
        cases hEnd
        rw [hAfter]
        rfl
      · rw [hNext] at hEnd
        rcases Option.map_eq_some_iff.mp hEnd with
          ⟨m, hm, rfl⟩
        rw [ih hAfter hm, copied_copied]
        rfl

/- A string without an end is copied as a whole. -/
theorem run_quoted_open
    {s : Scanner}
    {mark : Char}
    {escaped : Bool}
    {t : Text}
    (hContext : s.context = .quoted mark escaped)
    (hEnd : quotedLength? mark escaped t = none) :
    ∃ flag, run s t = s.copied t (.quoted mark flag) := by
  induction t generalizing s escaped with
  | nil =>
      refine ⟨escaped, ?_⟩
      rw [copied_nil, ← hContext]
      rfl
  | cons c rest ih =>
      rw [run, step_quoted c rest hContext]
      rcases quotedLength?_cons mark escaped c with
        ⟨hAfter, hOne⟩ | ⟨flag, hAfter, hNext⟩
      · rw [hOne] at hEnd
        cases hEnd
      · rw [hNext] at hEnd
        have hNone := Option.map_eq_none_iff.mp hEnd
        rw [hAfter]
        rcases ih (s := s.copied [c] (.quoted mark flag))
            rfl hNone with
          ⟨last, hRun⟩
        refine ⟨last, ?_⟩
        rw [hRun, copied_copied]
        rfl

end Scanner

end Stylesheet

end WebTidy
