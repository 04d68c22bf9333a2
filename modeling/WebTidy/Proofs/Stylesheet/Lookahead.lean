import WebTidy.Proofs.Stylesheet.Laid

/-
  What the scanner looks at ahead of a character.

  A colon looks for the next brace or semicolon, a close
  brace for the end of the text, an operator and the word
  calc for the characters directly behind them.  A layout
  shows the scanner the same as the text it is made from.

  Key theorems include:
    * `WebTidy.Stylesheet.Scanner.Laid.selectorAhead_eq`
    * `WebTidy.Stylesheet.Scanner.Laid.all_isBlank_eq`
    * `WebTidy.Stylesheet.Scanner.Laid.head?_source`
    * `WebTidy.Stylesheet.Scanner.Laid.parens_trackCalc_eq`
-/

------------------------------------------------------------
-- Colons
------------------------------------------------------------

namespace WebTidy

namespace Stylesheet

/- Blanks are not looked at. -/
theorem selectorAhead_blanks
    {blanks : Text}
    (rest : Text)
    (h : blanks.all isBlank = true) :
    selectorAhead (blanks ++ rest) = selectorAhead rest := by
  have hNone :
      blanks.find? (fun c => c = '{' ∨ c = ';' ∨ c = '}') =
        none := by
    rw [List.find?_eq_none]
    intro c hc hBrace
    have hBlank := List.all_eq_true.mp h c hc
    simp only [decide_eq_true_eq] at hBrace
    rcases hBrace with rfl | rfl | rfl <;> cases hBlank
  rw [selectorAhead, List.find?_append, hNone]
  rfl

/- A text in front of equal decisions. -/
theorem selectorAhead_append_congr
    (k : Text)
    {t u : Text}
    (h : selectorAhead t = selectorAhead u) :
    selectorAhead (k ++ t) = selectorAhead (k ++ u) := by
  unfold selectorAhead at h ⊢
  rw [List.find?_append, List.find?_append]
  cases k.find? (fun c => c = '{' ∨ c = ';' ∨ c = '}') with
  | none => exact h
  | some c => rfl

/- Neither are trailing blanks. -/
theorem selectorAhead_trimEnd
    (k : Text) :
    selectorAhead (k.trimEnd isBlank ++ ['\n']) =
      selectorAhead k := by
  rcases Text.exists_trimEnd_append isBlank k with
    ⟨tail, hTail, hk⟩
  have hSource : selectorAhead tail = false := by
    have hAppend := selectorAhead_blanks [] hTail
    rw [List.append_nil] at hAppend
    exact hAppend
  conv => rhs; rw [hk]
  apply selectorAhead_append_congr
  rw [hSource]
  rfl

namespace Scanner

/-
  A layout decides about the colon in front of it as its
  text does, except behind a semicolon, where the text may
  begin with another one.
-/
theorem Laid.selectorAhead_eq
    {s : Scanner}
    {source out : Text}
    (h : Laid s source out)
    (hFinal : s.final? ≠ some ';') :
    selectorAhead source =
      selectorAhead (out ++ ['\n']) := by
  induction h with
  | @blank s blanks hCode hBlanks =>
      have hSource : selectorAhead blanks = false := by
        have hAppend := selectorAhead_blanks [] hBlanks
        rw [List.append_nil] at hAppend
        exact hAppend
      rw [hSource]
      cases s.inValue <;> rfl
  | @openComment s blanks k hCode hBlanks hOpen hEnd =>
      rw [selectorAhead_blanks _ hBlanks, List.append_assoc,
        selectorAhead_blanks _ s.all_commentLead,
        selectorAhead_trimEnd]
  | @openString s blanks body mark hCode hBlanks hMark
      hEnd =>
      rw [selectorAhead_blanks _ hBlanks, List.append_assoc,
        selectorAhead_blanks _ (s.all_lead hBlanks),
        selectorAhead_trimEnd]
  | again hBlanks hSemicolon =>
      exact absurd hSemicolon hFinal
  | @dash s rest out hDash hRest ih =>
      apply selectorAhead_append_congr ['-']
      apply ih
      simp [final?, core, afterDash, isBlank]
  | @move s t blanks k rest text out hCode hBlanks hMove
      hRest ih =>
      rw [List.append_assoc, selectorAhead_blanks _ hBlanks,
        List.append_assoc]
      rcases hMove.text_eq hBlanks with
        ⟨front, hFront, rfl⟩ | ⟨_, rfl, rfl⟩
      · rw [List.append_assoc, selectorAhead_blanks _ hFront]
        by_cases hEnd : t.final? = some ';'
        -- A semicolon decides, whatever stands behind it.
        · rw [hMove.eq_semicolon hCode hBlanks hEnd]
          rfl
        · exact selectorAhead_append_congr k (ih hEnd)
      · rfl

end Scanner

end Stylesheet

end WebTidy

------------------------------------------------------------
-- The End Of The Text
------------------------------------------------------------

namespace WebTidy

namespace Stylesheet

namespace Scanner

/- A segment is more than blanks. -/
theorem Move.all_isBlank
    {s t : Scanner}
    {blanks rest k text : Text}
    (hBlanks : blanks.all isBlank = true)
    (h : Move s blanks rest k text t) :
    k.all isBlank = false ∧ text.all isBlank = false := by
  rcases h.exists_last with ⟨init, c, rfl, hc, _⟩
  have hk : List.all (init ++ [c]) isBlank = false := by
    simp [hc]
  refine ⟨hk, ?_⟩
  rcases h.text_eq hBlanks with ⟨front, _, rfl⟩ | ⟨_, _, rfl⟩
  · rw [List.all_append, hk, Bool.and_false]
  · rfl

/- Outside values a layout ends where its text ends. -/
theorem Laid.all_isBlank_eq
    {s : Scanner}
    {source out : Text}
    (h : Laid s source out)
    (hFinal : s.final? ≠ some ';')
    (hValue : s.inValue = false) :
    source.all isBlank = (out ++ ['\n']).all isBlank := by
  cases h with
  | blank hCode hBlanks =>
      rw [hBlanks, hValue]
      rfl
  | openComment hCode hBlanks hOpen hEnd =>
      rcases hOpen with ⟨body, rfl⟩
      change
        List.all (_ ++ '/' :: '*' :: body) isBlank =
          List.all
            (_ ++ Text.trimEnd isBlank ('/' :: '*' :: body) ++
              ['\n']) isBlank
      rw [Text.trimEnd_cons _ rfl]
      simp [isBlank]
  | openString hCode hBlanks hMark hEnd =>
      have hPlain := isBlank_and_ne_of_isMark hMark
      rw [Text.trimEnd_cons _ hPlain.1]
      simp [hPlain.1]
  | again hBlanks hSemicolon =>
      exact absurd hSemicolon hFinal
  | dash hDash hRest => rfl
  | move hCode hBlanks hMove hRest =>
      have hSome := hMove.all_isBlank hBlanks
      simp only [List.all_append, hSome.1, hSome.2,
        Bool.and_false, Bool.false_and]

end Scanner

end Stylesheet

end WebTidy

------------------------------------------------------------
-- Characters Directly Behind
------------------------------------------------------------

namespace WebTidy

namespace Stylesheet

/- Characters that blanks may be dropped behind. -/
def dropsBehind
    (c : Char) :
    Bool :=
  c = ';' ∨ c = ':' ∨ c = '}' ∨ c = '('

/- Characters that blanks may be dropped in front of. -/
def dropsAhead
    (c : Char) :
    Bool :=
  isBlank c ∨ c = ';' ∨ c = ':' ∨ c = ',' ∨ c = ')'

namespace Scanner

/-
  Behind a character that blanks stay behind, no blank in
  front of the next segment is lost.
-/
theorem eq_nil_of_lead
    {s : Scanner}
    {p : Char}
    {blanks : Text}
    (hs : Settled s)
    (hFinal : s.final? = some p)
    (hp : dropsBehind p = false)
    (hLead : s.lead blanks = []) :
    blanks = [] := by
  have hGap : s.gap blanks = [] :=
    (List.append_eq_nil_iff.mp hLead).1
  simp only [dropsBehind, decide_eq_false_iff_not, not_or]
    at hp
  unfold gap at hGap
  split at hGap
  · rename_i hSkip
    rcases hs.bare hSkip hGap with hColon | hBrace
    · rw [hColon, Option.some_inj] at hFinal
      exact absurd hFinal.symm hp.2.1
    · rw [hBrace, Option.some_inj] at hFinal
      exact absurd hFinal.symm hp.2.2.1
  · split at hGap
    · split at hGap
      · rename_i hNone
        rcases hNone with hNil | hOpen
        · exact hNil
        · rw [hOpen, Option.some_inj] at hFinal
          exact absurd hFinal.symm hp.2.2.2
      · cases hGap
    · rw [hFinal, if_neg (by simp)] at hGap
      cases blanks with
      | nil => rfl
      | cons c rest =>
          rw [throughLine] at hGap
          split at hGap <;> cases hGap

/- Blanks in front of a text do not start it otherwise. -/
theorem eq_nil_of_head?
    {front k : Text}
    {d : Char}
    (hFront : front.all isBlank = true)
    (hHead : (front ++ k).head? = some d)
    (hd : isBlank d = false) :
    front = [] := by
  cases front with
  | nil => rfl
  | cons c more =>
      simp only [List.cons_append, List.head?_cons,
        Option.some_inj] at hHead
      subst c
      simp [hd] at hFront

/- A segment written without blanks is read without them. -/
theorem Settled.head?_of_lead
    {s : Scanner}
    {p d : Char}
    {blanks t u : Text}
    (hs : Settled s)
    (hFinal : s.final? = some p)
    (hp : dropsBehind p = false)
    (hBlanks : blanks.all isBlank = true)
    (hd : isBlank d = false)
    (hSame : t.head? = u.head?)
    (hHead : (s.lead blanks ++ t).head? = some d) :
    (blanks ++ u).head? = some d := by
  have hLead :=
    eq_nil_of_head? (s.all_lead hBlanks) hHead hd
  have hNil := eq_nil_of_lead hs hFinal hp hLead
  rw [hLead, List.nil_append, hSame] at hHead
  rw [hNil]
  exact hHead

/- A comment begins on a line of its own. -/
theorem head?_commentLead_append
    {s : Scanner}
    {p : Char}
    (k : Text)
    (hFinal : s.final? = some p) :
    (s.commentLead ++ k).head? = some '\n' := by
  rw [commentLead, hFinal, if_neg (by simp)]
  rfl

/-
  What a move writes directly behind the final part, it has
  read there too.
-/
theorem Move.head?_source
    {s t : Scanner}
    {blanks rest k text : Text}
    {p d : Char}
    (hs : Settled s)
    (hBlanks : blanks.all isBlank = true)
    (h : Move s blanks rest k text t)
    (hFinal : s.final? = some p)
    (hp : dropsBehind p = false)
    (out : Text)
    (hHead : (text ++ out).head? = some d)
    (hd : dropsAhead d = false) :
    (blanks ++ (k ++ rest)).head? = some d := by
  have hBlank : isBlank d = false := by
    simp [dropsAhead] at hd
    exact hd.1
  have hLead
      (hStart : (s.lead blanks ++ k ++ out).head? = some d)
      (hNonempty : k ≠ []) :
      (blanks ++ (k ++ rest)).head? = some d := by
    rw [List.append_assoc] at hStart
    apply hs.head?_of_lead hFinal hp hBlanks hBlank _ hStart
    cases k with
    | nil => exact absurd rfl hNonempty
    | cons c more => rfl
  cases h with
  | plain | word | dash =>
      exact hLead hHead (by simp)
  | string k hString =>
      apply hLead hHead
      rintro rfl
      cases hString
  | comment k hComment =>
      rw [List.append_assoc,
        head?_commentLead_append _ hFinal] at hHead
      cases hHead
      cases hBlank
  | operator | openBlock | closeBlock =>
      cases hHead
      cases hBlank
  | _ =>
      cases hHead
      cases hd

/-
  What a layout begins with directly behind the final part,
  its text begins with too.
-/
theorem Laid.head?_source
    {s : Scanner}
    {source out : Text}
    {p d : Char}
    (hs : Ready s source)
    (h : Laid s source out)
    (hFinal : s.final? = some p)
    (hp : dropsBehind p = false)
    (hHead : (out ++ ['\n']).head? = some d)
    (hd : dropsAhead d = false) :
    source.head? = some d := by
  have hBlank : isBlank d = false := by
    simp [dropsAhead] at hd
    exact hd.1
  cases h with
  | blank hCode hBlanks =>
      cases hValue : s.inValue with
      | false =>
          rw [hValue] at hHead
          cases hHead
          cases hBlank
      | true =>
          rw [hValue] at hHead
          cases hHead
          cases hd
  | openComment hCode hBlanks hOpen hEnd =>
      rw [List.append_assoc,
        head?_commentLead_append _ hFinal] at hHead
      cases hHead
      cases hBlank
  | openString hCode hBlanks hMark hEnd =>
      have hPlain := isBlank_and_ne_of_isMark hMark
      rw [List.append_assoc, Text.trimEnd_cons _ hPlain.1]
        at hHead
      refine hs.settled.head?_of_lead hFinal hp hBlanks hBlank
        ?_ hHead
      rfl
  | again hBlanks hAgain =>
      rw [hAgain, Option.some_inj] at hFinal
      subst p
      cases hp
  | dash hDash hRest => exact hHead
  | move hCode hBlanks hMove hRest =>
      rw [List.append_assoc] at hHead ⊢
      exact hMove.head?_source hs.settled hBlanks hFinal hp _
        hHead hd

end Scanner

end Stylesheet

end WebTidy

------------------------------------------------------------
-- Words Of Values
------------------------------------------------------------

namespace WebTidy

namespace Stylesheet

/- Characters that a value copies in every state. -/
def isWord
    (c : Char) :
    Bool :=
  isPlain c && !isOperator c && c != ')' && c != ':'

/- No blank is dropped in front of a word. -/
theorem dropsAhead_of_isWord
    {c : Char}
    (h : isWord c = true) :
    isBlank c = false ∧ dropsAhead c = false := by
  simp [isWord, isPlain] at h
  simp [dropsAhead, h]

/- The characters that belong to no word. -/
theorem mem_of_isWord_eq_false
    {d : Char}
    (h : isWord d = false) :
    d ∈ " \t\n\r\x0c\"'{};,+-*/):".toList := by
  simp [isWord, isPlain, isBlank, isMark, isOperator] at h
  simp
  grind

/- The characters of the names of functions. -/
theorem isWord_of_toLower
    {d : Char}
    (h : d.toLower.isAlpha = true ∨ d.toLower = '(') :
    isWord d = true := by
  have hAll :
      (" \t\n\r\x0c\"'{};,+-*/):".toList.all fun e =>
        !e.toLower.isAlpha && e.toLower != '(') = true := by
    rfl
  cases hd : isWord d with
  | true => rfl
  | false =>
      have hNone :=
        List.all_eq_true.mp hAll d (mem_of_isWord_eq_false hd)
      simp only [Bool.and_eq_true, Bool.not_eq_true',
        bne_iff_ne] at hNone
      rcases h with hAlpha | hOpen
      · rw [hNone.1] at hAlpha
        cases hAlpha
      · exact absurd hOpen hNone.2

/- The characters that a name goes on with. -/
theorem isWord_of_isIdentStart
    {d : Char}
    (h : isIdentStart d = true)
    (hDash : d ≠ '-') :
    isWord d = true := by
  have hAll :
      (" \t\n\r\x0c\"'{};,+-*/):".toList.all fun e =>
        e == '-' || !isIdentStart e) = true := by
    rfl
  cases hd : isWord d with
  | true => rfl
  | false =>
      have hNone :=
        List.all_eq_true.mp hAll d (mem_of_isWord_eq_false hd)
      simp [hDash, h] at hNone

/- Blanks stay behind a letter. -/
theorem dropsBehind_of_isAlpha
    {d : Char}
    (h : d.toLower.isAlpha = true) :
    dropsBehind d = false := by
  cases hDrop : dropsBehind d with
  | false => rfl
  | true =>
      simp only [dropsBehind, decide_eq_true_eq] at hDrop
      rcases hDrop with rfl | rfl | rfl | rfl <;> cases h

namespace Scanner

/- A scanner inside a word of a value. -/
structure InWord
    (s : Scanner) :
    Prop where
  settled : Settled s
  code : s.context = .code
  attending : s.skipping = false
  value : s.inValue = true

/- The move of a character of a word. -/
theorem Move.of_isWord
    {s t : Scanner}
    {rest k text tail : Text}
    {d : Char}
    (hs : InWord s)
    (hd : isWord d = true)
    (h : Move s [] rest k text t)
    (hSource : k ++ rest = d :: tail) :
    rest = tail ∧ text = [d] ∧ InWord t := by
  have hLead : s.lead [] = [] := by
    rw [lead_value hs.settled hs.value]
    simp [gap, hs.attending, hs.value]
  have hSettled := (h.core_eq_and_settled hs.code).2
  cases h with
  | plain c hPlain hComment hColon hValue =>
      rw [hs.value] at hValue
      cases hValue
  | word c hPlain hComment hClose hValue hOperator =>
      cases hSource
      refine ⟨rfl, ?_, hSettled, hs.code, rfl, hValue⟩
      rw [hLead]
      rfl
  | operator c hComment hValue hParens hOperator =>
      cases hSource
      simp [isWord, hOperator] at hd
  | comment k hComment =>
      rcases exists_of_commentLength? hComment with
        ⟨body, m, rfl, _⟩
      cases hSource
      cases hd
  | string k hString =>
      rcases exists_of_stringLength? hString with
        ⟨mark, body, m, rfl, hMark, _⟩
      cases hSource
      simp [isWord, isPlain, hMark] at hd
  | _ =>
      cases hSource
      cases hd

/- A word is copied character by character. -/
theorem Laid.of_isWord
    {s : Scanner}
    {rest out : Text}
    {d : Char}
    (h : Laid s (d :: rest) out)
    (hs : InWord s)
    (hd : isWord d = true) :
    ∃ t tail,
      out = d :: tail ∧ Laid t rest tail ∧ InWord t ∧
      t.final? = some d := by
  have hBlank := (dropsAhead_of_isWord hd).1
  generalize hSource : d :: rest = source at h
  have hHead : source.head? = some d := by
    rw [← hSource]
    rfl
  cases h with
  | blank hCode hBlanks =>
      rw [← hSource] at hBlanks
      simp [hBlank] at hBlanks
  | openComment hCode hBlanks hOpen hEnd =>
      rcases hOpen with ⟨body, rfl⟩
      rw [eq_nil_of_head? hBlanks hHead hBlank] at hSource
      cases hSource
      cases hd
  | openString hCode hBlanks hMark hEnd =>
      rw [eq_nil_of_head? hBlanks hHead hBlank] at hSource
      cases hSource
      simp [isWord, isPlain, hMark] at hd
  | again hBlanks hFinal =>
      exact absurd hFinal
        (hs.settled.final?_ne_semicolon hs.value)
  | dash hDash =>
      rw [hs.code] at hDash
      cases hDash
  | @move _ t blanks k tail text out hCode hBlanks hMove
      hRest =>
      rw [List.append_assoc] at hHead hSource
      have hNil := eq_nil_of_head? hBlanks hHead hBlank
      subst blanks
      rcases hMove.of_isWord hs hd hSource.symm with
        ⟨rfl, rfl, ht⟩
      refine ⟨t, out, rfl, hRest, ht, ?_⟩
      rw [final?, (hMove.core_eq_and_settled hCode).1]
      rfl

/-
  One character of a mark ahead, and the rest of the mark
  behind it.
-/
theorem Laid.beginsWith_cons_eq
    {s : Scanner}
    {source out mark : Text}
    {p m : Char}
    (h : Laid s source out)
    (hs : InWord s)
    (hFinal : s.final? = some p)
    (hp : dropsBehind p = false)
    (hWord :
      ∀ d : Char, d.toLower = m.toLower → isWord d = true)
    (hMark :
      ∀ d t rest tail,
        d.toLower = m.toLower →
        Laid t rest tail → InWord t → t.final? = some d →
        Text.beginsWith mark rest =
          Text.beginsWith mark (tail ++ ['\n'])) :
    Text.beginsWith (m :: mark) source =
      Text.beginsWith (m :: mark) (out ++ ['\n']) := by
  by_cases hHead :
      ∃ d rest, source = d :: rest ∧ d.toLower = m.toLower
  · rcases hHead with ⟨d, rest, rfl, hd⟩
    rcases h.of_isWord hs (hWord d hd) with
      ⟨t, tail, rfl, hTail, ht, hLast⟩
    rw [List.cons_append, Text.beginsWith_cons,
      Text.beginsWith_cons,
      hMark d t rest tail hd hTail ht hLast]
  · have hSource :
        Text.beginsWith (m :: mark) source = false := by
      cases source with
      | nil => rfl
      | cons d rest =>
          rw [Text.beginsWith_cons]
          have hd : ¬ d.toLower = m.toLower :=
            fun hd => hHead ⟨d, rest, rfl, hd⟩
          rw [decide_eq_false hd, Bool.false_and]
    rw [hSource]
    cases hOut : out ++ ['\n'] with
    | nil => rfl
    | cons d rest =>
        rw [Text.beginsWith_cons]
        have hd : ¬ d.toLower = m.toLower := by
          intro hd
          have hFirst :=
            h.head?_source ⟨hs.settled, Or.inl hs.code⟩
              hFinal hp (by rw [hOut]; rfl)
              (dropsAhead_of_isWord (hWord d hd)).2
          rcases List.head?_eq_some_iff.mp hFirst with
            ⟨more, hMore⟩
          exact hHead ⟨d, more, hMore, hd⟩
        rw [decide_eq_false hd, Bool.false_and]

/-
  A name and an open parenthesis are seen ahead in the
  layout as in the text.
-/
theorem Laid.beginsWith_eq
    {s : Scanner}
    {source out letters : Text}
    {p : Char}
    (h : Laid s source out)
    (hs : InWord s)
    (hFinal : s.final? = some p)
    (hp : p.toLower.isAlpha = true)
    (hLetters :
      (letters.all (·.toLower.isAlpha)) = true) :
    Text.beginsWith (letters ++ ['(']) source =
      Text.beginsWith (letters ++ ['(']) (out ++ ['\n']) := by
  have hKept := dropsBehind_of_isAlpha hp
  induction letters generalizing s source out p with
  | nil =>
      apply h.beginsWith_cons_eq hs hFinal hKept
      · intro d hd
        exact isWord_of_toLower (Or.inr hd)
      · intros
        rfl
  | cons m more ih =>
      simp only [List.all_cons, Bool.and_eq_true] at hLetters
      have hm := hLetters.1
      apply h.beginsWith_cons_eq hs hFinal hKept
      · intro d hd
        exact isWord_of_toLower (Or.inl (hd ▸ hm))
      · intro d t rest tail hd hTail ht hLast
        have hAlpha : d.toLower.isAlpha = true := hd ▸ hm
        exact ih hTail ht hLast hAlpha hLetters.2
          (dropsBehind_of_isAlpha hAlpha)

/- So a calc expression begins in both or in none. -/
theorem Laid.parens_trackCalc_eq
    {s t : Scanner}
    {source out : Text}
    {c : Char}
    (h : Laid t source out)
    (ht : InWord t)
    (hFinal : t.final? = some c) :
    (s.trackCalc c source).parens =
      (s.trackCalc c (out ++ ['\n'])).parens := by
  by_cases hLetter : c.toLower = 'c'
  · have hAlpha : c.toLower.isAlpha = true := by
      rw [hLetter]
      rfl
    have hAhead :
        Text.beginsWith ("alc".toList ++ ['(']) source =
          Text.beginsWith ("alc".toList ++ ['('])
            (out ++ ['\n']) :=
      h.beginsWith_eq ht hFinal hAlpha rfl
    have hCalc :
        "calc(".toList = 'c' :: ("alc".toList ++ ['(']) := by
      rfl
    simp only [trackCalc, hCalc, Text.beginsWith_cons, hAhead]
  · simp only [trackCalc, beginsWith_calc _ hLetter]

/- The second dash of a custom name stays where it is. -/
theorem Laid.head?_of_dash
    {s : Scanner}
    {source out : Text}
    (h : Laid s source out)
    (hs : Ready s source)
    (hDash : s.context = .dash) :
    out.head? = some '-' := by
  have hCode : s.context ≠ .code := by simp [hDash]
  cases h with
  | again hBlanks hFinal =>
      exact absurd (hs.settled.ended hFinal).1 hCode
  | dash => rfl
  | blank h | openComment h | openString h | move h =>
      exact absurd h hCode

end Scanner

end Stylesheet

end WebTidy
