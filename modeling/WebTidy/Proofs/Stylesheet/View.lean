import WebTidy.Proofs.Stylesheet.Move
import WebTidy.Proofs.Text.Octet

/-
  Other views of a scanner.

  A view gives the output and the last character read in
  another form.  The scanner decides by ASCII characters, by
  the blanks at the end, and by what it copies.  A view that
  keeps these is kept by every step, so each function of the
  scanner is looked at only once for all views.

  Key definitions include:
    * `WebTidy.Stylesheet.Scanner.View`
    * `WebTidy.Stylesheet.Scanner.View.of`
    * `WebTidy.Stylesheet.Scanner.View.Copies`

  Key theorems include:
    * `WebTidy.Stylesheet.Scanner.View.write_of`
    * `WebTidy.Stylesheet.Scanner.View.readCode_of`
    * `WebTidy.Stylesheet.Scanner.View.read_of`
    * `WebTidy.Stylesheet.Scanner.View.step_of`
-/

------------------------------------------------------------
-- Deciding Characters
------------------------------------------------------------

namespace WebTidy

namespace Stylesheet

open Octet

/- What stands before a sign is an ASCII character, -/
theorem treatsWide_beforeSign :
    TreatsWide
      (fun d => d = '(' ∨ d = ',' ∨ isOperator d) false := by
  apply treatsWide_false
  intro c hc
  simp only [isOperator, decide_eq_true_eq] at hc
  rcases hc with rfl | rfl | rfl | rfl | rfl | rfl <;> rfl

/- and so is what takes no space behind it. -/
theorem treatsWide_beforeSpace :
    TreatsWide (fun d => d ≠ '(' ∧ d ≠ ' ' ∧ d ≠ '\n')
      true := by
  intro c hc
  have hOpen : c ≠ '(' := ne_of_isWide hc (by decide)
  have hSpace : c ≠ ' ' := ne_of_isWide hc (by decide)
  have hFeed : c ≠ '\n' := ne_of_isWide hc (by decide)
  simp [hOpen, hSpace, hFeed]

namespace Scanner

/- Every character of the indentation is a tab. -/
theorem all_tabs
    {p : Char → Bool}
    (s : Scanner)
    (h : p '\t' = true) :
    s.tabs.all p = true := by
  rw [List.all_eq_true]
  intro c hc
  rw [List.eq_of_mem_replicate hc]
  exact h

/- No carriage return is left at the end by trimming. -/
theorem last?_trimmed_ne
    (s : Scanner) :
    s.trimmed.last? ≠ some '\r' := by
  intro hLast
  have hBlank := isBlank_last_trimmed s '\r' hLast
  cases hBlank

/- Neither is one after a semicolon. -/
theorem last?_terminate_ne
    {s : Scanner}
    (h : s.last? ≠ some '\r') :
    s.terminate.last? ≠ some '\r' := by
  unfold terminate
  split
  · exact h
  · simp [last?, write]

end Scanner

end Stylesheet

end WebTidy

------------------------------------------------------------
-- Views
------------------------------------------------------------

namespace WebTidy

namespace Stylesheet

namespace Scanner

open Octet

/-
  A way to give the output, newest character first, and the
  last character read.  `last` tells what stands for the
  last character written.  Only a carriage return may be
  lost, in front of a line feed.
-/
structure View where
  output : Text → Text
  before : Option Char → Option Char
  last : Char → Char
  keeps : Keeps last
  head?_output :
    ∀ w, (output w).head? = w.head?.map last
  dropWhile_output :
    ∀ w,
      (output w).dropWhile isBlank =
        output (w.dropWhile isBlank)
  output_cons :
    ∀ {c : Char} {w : Text},
      isWide c = false →
      (c = '\n' → w.head? ≠ some '\r') →
      output (c :: w) = c :: output w

namespace View

/- The view of a scanner. -/
def of
    (v : View)
    (s : Scanner) :
    Scanner :=
  { s with
    written := v.output s.written
    before := v.before s.before }

/- A character that is written as it is. -/
def Copies
    (v : View)
    (c : Char) :
    Prop :=
  ∀ w : Text,
    (c = '\n' → w.head? ≠ some '\r') →
      v.output (c :: w) = c :: v.output w

/- ASCII characters are. -/
theorem copies_of_ascii
    (v : View)
    {c : Char}
    (hc : isWide c = false) :
    v.Copies c := by
  exact fun w h => v.output_cons hc h

variable
  (v : View)
  (s : Scanner)

/- The last character written. -/
@[simp] theorem last?_of :
    (v.of s).last? = s.last?.map v.last := by
  exact v.head?_output s.written

/- It is the same ASCII character, or none. -/
theorem last?_of_eq_iff
    {d : Char}
    (hd : isWide d = false) :
    (v.of s).last? = some d ↔ s.last? = some d := by
  rw [last?_of]
  exact map_eq_some_iff v.keeps hd s.last?

/- Taking back blanks. -/
theorem trimmed_of :
    (v.of s).trimmed = v.of s.trimmed := by
  unfold trimmed of
  rw [v.dropWhile_output]

/- Writing one character. -/
theorem write_one
    {c : Char}
    (h : v.output (c :: s.written) =
      c :: v.output s.written) :
    (v.of s).write [c] = v.of (s.write [c]) := by
  simp only [write, of, List.reverse_singleton,
    List.singleton_append]
  rw [h]

/- Writing an ASCII text without carriage returns. -/
theorem write_of
    {t : Text}
    (ht : t.all (fun c => !isWide c && c != '\r') = true)
    (h : t.head? = some '\n' → s.last? ≠ some '\r') :
    (v.of s).write t = v.of (s.write t) := by
  induction t generalizing s with
  | nil => simp [write]
  | cons c t ih =>
      rw [List.all_cons, Bool.and_eq_true, Bool.and_eq_true,
        Bool.not_eq_true', bne_iff_ne] at ht
      have hOne :=
        v.write_one s (v.copies_of_ascii ht.1.1 s.written
          (fun hc => h (by rw [hc]; rfl)))
      have hNext :
          t.head? = some '\n' →
            (s.write [c]).last? ≠ some '\r' := by
        intro _
        simpa [last?, write] using ht.1.2
      rw [← List.singleton_append, ← write_write, hOne,
        ih (s.write [c]) ht.2 hNext, write_write]

/- A view of both branches of a decision. -/
theorem of_ite
    (condition : Prop)
    [Decidable condition]
    (t : Scanner) :
    v.of (if condition then s else t) =
      if condition then v.of s else v.of t := by
  split <;> rfl

end View

end Scanner

end Stylesheet

end WebTidy

------------------------------------------------------------
-- Every Function Of The Scanner
------------------------------------------------------------

namespace WebTidy

namespace Stylesheet

namespace Scanner

namespace View

open Octet

variable
  (v : View)
  (s : Scanner)

/- A line feed with tabs, between two such texts. -/
theorem write_tabs
    (front tail : Text)
    (hFront :
      front.all (fun c => !isWide c && c != '\r') = true)
    (hTail :
      tail.all (fun c => !isWide c && c != '\r') = true)
    (h : (front ++ tail).head? = some '\n' →
      s.last? ≠ some '\r') :
    (v.of s).write (front ++ (s.tabs ++ tail)) =
      v.of (s.write (front ++ (s.tabs ++ tail))) := by
  have hTabs :=
    s.all_tabs (p := fun c => !isWide c && c != '\r') rfl
  apply v.write_of
  · rw [List.all_append, List.all_append, hFront, hTabs, hTail]
    rfl
  · intro hFeed
    apply h
    cases front with
    | cons c front => exact hFeed
    | nil =>
        cases hDepth : s.depth with
        | zero => simpa [tabs, hDepth] using hFeed
        | succ depth =>
            simp [tabs, hDepth, List.replicate_succ] at hFeed

/- A value takes a space in the same places. -/
theorem takesSpace_of :
    (v.of s).takesSpace = s.takesSpace := by
  rw [takesSpace, takesSpace, last?_of, Option.any_map,
    treatsWide_beforeSpace.comp_eq v.keeps]

/- A semicolon, -/
theorem terminate_of :
    (v.of s).terminate = v.of s.terminate := by
  simp only [terminate, v.of_ite,
    v.last?_of_eq_iff s (d := ';') (by decide),
    v.write_of s (t := [';']) (by decide) (by simp)]

/- the parentheses of a group, -/
theorem trackGroup_of
    (c : Char) :
    (v.of s).trackGroup c = v.of (s.trackGroup c) := by
  rw [trackGroup, trackGroup, v.of_ite, v.of_ite]
  rfl

/- the start of a comment, -/
theorem openComment_of :
    (v.of s).openComment = v.of s.openComment := by
  have hTabs : (v.of s.trimmed).tabs = s.trimmed.tabs := rfl
  have hLine :
      (v.of s.trimmed).write ('\n' :: s.trimmed.tabs) =
        v.of (s.trimmed.write ('\n' :: s.trimmed.tabs)) := by
    have hSame :=
      v.write_tabs s.trimmed ['\n'] [] (by decide) (by decide)
        (fun _ => last?_trimmed_ne s)
    rw [List.append_nil] at hSame
    exact hSame
  have hSlash (t : Scanner) :
      (v.of t).write ['/'] = v.of (t.write ['/']) :=
    v.write_of t (by decide) (by simp)
  unfold openComment
  simp only [v.trimmed_of, last?_of, Option.map_eq_none_iff,
    hTabs, hLine]
  split <;> rw [hSlash] <;> rfl

/- the start of a block, -/
theorem openBlock_of :
    (v.of s).openBlock = v.of s.openBlock := by
  have hBrace :
      (v.of s.trimmed).write [' ', '{', '\n'] =
        v.of (s.trimmed.write [' ', '{', '\n']) :=
    v.write_of s.trimmed (by decide) (by simp)
  simp only [openBlock, v.trimmed_of, hBrace]
  rfl

/- its end, -/
theorem closeBlock_of
    (rest : Text) :
    (v.of s).closeBlock rest = v.of (s.closeBlock rest) := by
  have hFinish (t : Scanner)
      (ht : t.last? ≠ some '\r') :
      (if rest.all isBlank then
        (v.of t).write ('\n' :: t.tabs ++ ['}'])
      else
        ((v.of t).write
          ('\n' :: t.tabs ++ ['}'])).write ['\n']) =
      v.of
        (if rest.all isBlank then
          t.write ('\n' :: t.tabs ++ ['}'])
        else
          (t.write
            ('\n' :: t.tabs ++ ['}'])).write ['\n']) := by
    have hBrace :
        (v.of t).write ('\n' :: t.tabs ++ ['}']) =
          v.of (t.write ('\n' :: t.tabs ++ ['}'])) :=
      v.write_tabs t ['\n'] ['}'] (by decide) (by decide)
        (fun _ => ht)
    rw [v.of_ite, hBrace, v.write_of _ (by decide)]
    simp [last?, write]
  have hLast := last?_trimmed_ne s
  have hValue : (v.of s.trimmed).inValue = s.trimmed.inValue :=
    rfl
  have hEnded :
      (if s.trimmed.inValue = true ∧
          ¬ s.trimmed.last? = none then s.trimmed.terminate
        else s.trimmed).last? ≠ some '\r' := by
    split
    · exact last?_terminate_ne hLast
    · exact hLast
  unfold closeBlock
  simp only [v.trimmed_of, last?_of, hValue, ne_eq,
    Option.map_eq_none_iff, v.terminate_of, ← v.of_ite]
  generalize (if s.trimmed.inValue = true ∧
      ¬ s.trimmed.last? = none then s.trimmed.terminate
    else s.trimmed) = t at hEnded ⊢
  exact hFinish
    { t with
      depth := t.depth - 1
      inBlock := false
      inValue := false
      parens := none
      skipping := true }
    hEnded

/- the end of a declaration, -/
theorem endDeclaration_of :
    (v.of s).endDeclaration = v.of s.endDeclaration := by
  have hFeed :
      (v.of s.trimmed.terminate).write ['\n'] =
        v.of (s.trimmed.terminate.write ['\n']) :=
    v.write_of _ (by decide)
      (fun _ => last?_terminate_ne (last?_trimmed_ne s))
  simp only [endDeclaration, v.trimmed_of, v.terminate_of,
    hFeed]
  rfl

/- a comma, -/
theorem readComma_of :
    (v.of s).readComma = v.of s.readComma := by
  have hSpace :
      (v.of s.trimmed).write [',', ' '] =
        v.of (s.trimmed.write [',', ' ']) :=
    v.write_of s.trimmed (by decide) (by simp)
  simp only [readComma, v.trimmed_of, hSpace]
  rfl

/- and a colon. -/
theorem readColon_of
    (rest : Text) :
    (v.of s).readColon rest = v.of (s.readColon rest) := by
  have hColon (tail : Text) (hTail : tail = [] ∨ tail = [' ']) :
      (v.of s.trimmed).write (':' :: tail) =
        v.of (s.trimmed.write (':' :: tail)) := by
    rcases hTail with rfl | rfl
    · exact v.write_of s.trimmed (by decide) (by simp)
    · exact v.write_of s.trimmed (by decide) (by simp)
  have hShort := hColon [] (Or.inl rfl)
  have hLong := hColon [' '] (Or.inr rfl)
  have hView :
      (v.of s).readColon rest =
        if s.inGroup = true ∨ selectorAhead rest = true then
          { (v.of s.trimmed).write [':'] with skipping := true }
        else
          { (v.of s.trimmed).write [':', ' '] with
            skipping := true
            inValue := true } := by
    rw [readColon, v.trimmed_of]
    rfl
  rw [hView, hShort, hLong, readColon, v.of_ite]
  rfl

section Character

variable
  {c : Char}
  (hc : v.Copies c)
  (hHere :
    v.output (c :: s.written) = c :: v.output s.written)

include hc hHere

/- A character with its indentation, -/
theorem put_of :
    (v.of s).put c = v.of (s.put c) := by
  have hTabs : (v.of s).tabs = s.tabs := rfl
  simp only [put, v.of_ite, hTabs,
    v.last?_of_eq_iff s (d := '\n') (by decide),
    v.write_one s hHere]
  split
  · rename_i hLast
    have hLead :
        (v.of s).write s.tabs = v.of (s.write s.tabs) := by
      have hSame := v.write_tabs s [] [] rfl rfl (by simp)
      rwa [List.append_nil, List.nil_append] at hSame
    have hBehind : (s.write s.tabs).last? ≠ some '\r' := by
      rw [last?] at hLast
      cases hDepth : s.depth with
      | zero => simp [last?, write, tabs, hDepth, hLast]
      | succ depth =>
          simp [last?, write, tabs, hDepth,
            List.replicate_succ']
    rw [← write_write, hLead,
      v.write_one _ (hc _ (fun _ => hBehind)), write_write]
  · rfl

end Character

section Value

variable
  {c : Char}
  (hc : v.Copies c)
  (rest : Text)
  (hBefore :
    (v.before s.before).any isIdentChar =
      s.before.any isIdentChar)

include hBefore

/- An operator, -/
theorem readOperator_of
    (hOperator : isOperator c = true) :
    (v.of s).readOperator c rest =
      v.of (s.readOperator c rest) := by
  have hText :
      isWide c = false ∧
        (!isWide c && c != '\r') = true ∧ c ≠ '\n' := by
    simp only [isOperator, decide_eq_true_eq] at hOperator
    rcases hOperator with rfl | rfl | rfl | rfl <;> decide
  have hCopies := v.copies_of_ascii hText.1
  have hHere :
      v.output (c :: s.written) = c :: v.output s.written :=
    hCopies s.written (fun h => absurd h hText.2.2)
  have hDash : (v.of s).write [c] = v.of (s.write [c]) :=
    v.write_one s hHere
  have hSpace :
      (v.of s.trimmed).write [' ', c, ' '] =
        v.of (s.trimmed.write [' ', c, ' ']) := by
    apply v.write_of
    · rw [List.all_cons, List.all_cons, hText.2.1]
      decide
    · simp
  have hSign : (v.of s).isSign c = s.isSign c := by
    simp only [isSign, v.trimmed_of, last?_of,
      Option.all_map, treatsWide_beforeSign.comp_eq v.keeps]
  have hHyphen : (v.of s).isHyphen c rest = s.isHyphen c rest := by
    have hSame :
        (v.of s).before.any isIdentChar =
          s.before.any isIdentChar := hBefore
    simp only [isHyphen, hSame]
  rw [readOperator, readOperator, hSign, hHyphen, hDash,
    v.of_ite, v.of_ite, v.put_of s hCopies hHere,
    v.trimmed_of, hSpace]
  rfl

include hc

/- a character of a value, -/
theorem readValue_of :
    (v.of s).readValue c rest = v.of (s.readValue c rest) := by
  have hTrack :
      (v.of s).trackCalc c rest = v.of (s.trackCalc c rest) :=
    rfl
  have hSame :
      (v.before (s.trackCalc c rest).before).any isIdentChar =
        (s.trackCalc c rest).before.any isIdentChar := hBefore
  simp only [readValue, hTrack]
  generalize s.trackCalc c rest = t at hSame ⊢
  have hParens : (v.of t).parens = t.parens := rfl
  have hSpace : (v.of t).write [' '] = v.of (t.write [' ']) :=
    v.write_of t (by decide) (by simp)
  simp only [hParens, v.takesSpace_of, hSpace, v.trimmed_of]
  split
  · rename_i hOperator
    exact v.readOperator_of t rest hSame hOperator.2
  · split
    · rw [v.of_ite]
    · rename_i hInk
      have hAny (w : Text) :
          v.output (c :: w) = c :: v.output w := by
        apply hc
        rintro rfl
        exact absurd rfl hInk
      split
      · exact v.put_of t.trimmed hc (hAny _)
      · exact v.put_of t hc (hAny _)

variable
  (hHere :
    v.output (c :: s.written) = c :: v.output s.written)

include hHere

/- any plain character, -/
theorem readPlain_of :
    (v.of s).readPlain c rest = v.of (s.readPlain c rest) := by
  have hStart : (v.of s).atLineStart = s.atLineStart := by
    simp only [atLineStart, last?_of, Option.map_eq_none_iff,
      ← v.last?_of_eq_iff s (d := '\n') (by decide)]
  rw [readPlain, readPlain, v.of_ite, v.of_ite,
    v.readValue_of s hc rest hBefore, v.put_of s hc hHere,
    hStart]
  rfl

/- any character of code, -/
theorem readCode_of :
    (v.of s).readCode c rest = v.of (s.readCode c rest) := by
  obtain ⟨t, ht⟩ :
      ∃ t, { s.trackGroup c with skipping := false } = t :=
    ⟨_, rfl⟩
  have hTrack :
      { (v.of s).trackGroup c with skipping := false } =
        v.of t := by
    rw [trackGroup_of, ← ht]
    rfl
  have hValue :
      ((v.of s).trackGroup c).inValue =
        (s.trackGroup c).inValue := by
    rw [trackGroup_of]
    rfl
  have hThere :
      v.output (c :: t.written) = c :: v.output t.written := by
    rw [← ht, trackGroup_eq]
    exact hHere
  have hSame :
      (v.before t.before).any isIdentChar =
        t.before.any isIdentChar := by
    rw [← ht, trackGroup_eq]
    exact hBefore
  simp only [readCode, hTrack, ht]
  simp only [hValue]
  simp only [v.of_ite, v.openComment_of, v.openBlock_of,
    v.put_of t hc hThere, v.closeBlock_of, v.endDeclaration_of,
    v.readComma_of, v.readColon_of,
    v.readPlain_of t hc rest hSame hThere]
  rfl

/- and any character at all. -/
theorem read_of :
    (v.of s).read c rest = v.of (s.read c rest) := by
  have hContext : (v.of s).context = s.context := rfl
  have hSkip : (v.of s).skipping = s.skipping := rfl
  have hWrite : (v.of s).write [c] = v.of (s.write [c]) :=
    v.write_one s hHere
  rw [read, read, hContext]
  cases s.context with
  | code =>
      simp only [hSkip, v.of_ite,
        v.readCode_of s hc rest hBefore hHere]
  | opening | comment star | quoted mark escaped | dash =>
      simp only [hWrite]
      rfl

/- So every step that remembers the character shows it. -/
theorem step_of
    (hKeep : v.before (some c) = some c) :
    (v.of s).step c rest = v.of (s.step c rest) := by
  rw [step, step, v.read_of s hc rest hBefore hHere]
  simp only [of, hKeep]

end Value

end View

end Scanner

end Stylesheet

end WebTidy
