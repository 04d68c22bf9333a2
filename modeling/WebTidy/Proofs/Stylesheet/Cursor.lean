import WebTidy.Proofs.Stylesheet.Respacing
import WebTidy.Proofs.Text.Slice
import WebTidy.Stylesheet.Cursor

/-
  The layout of style sheets by index never looks up what is
  not there, and it writes what the scanner writes.

  At every stop the index divides the style sheet: what is
  in front of it is read, and the scanner that reads what is
  behind it ends with the result of the whole.  A step looks
  up only what is behind its index, and keeps this result.

  Key definitions include:
    * `WebTidy.Stylesheet.Scanner.placed`
    * `WebTidy.Stylesheet.Cursor.resultAt`

  Key theorems include:
    * `WebTidy.Stylesheet.Cursor.exists_readCode`
    * `WebTidy.Stylesheet.Cursor.exists_step`
    * `WebTidy.Stylesheet.Cursor.prettify_eq`
-/

------------------------------------------------------------
-- Scanners In Place
------------------------------------------------------------

namespace WebTidy

namespace Stylesheet

namespace Scanner

/-
  A scanner in a context behind some character, which does
  not skip blanks.
-/
def placed
    (s : Scanner)
    (context : Context)
    (before : Option Char) :
    Scanner :=
  { s with
    context := context
    before := before
    skipping := false }

/- A scanner that skips blanks. -/
def skips
    (s : Scanner) :
    Scanner :=
  { s with skipping := true }

variable
  (s : Scanner)
  (k : Context)
  (b : Option Char)

/- Both branches of a decision in place. -/
theorem placed_ite
    (condition : Prop)
    [Decidable condition]
    (t : Scanner) :
    (if condition then s else t).placed k b =
      if condition then s.placed k b else t.placed k b := by
  split <;> rfl

/- Where a scanner stands does not change what it writes, -/
theorem put_placed
    (c : Char) :
    (s.placed k b).put c = (s.put c).placed k b := by
  unfold put
  rw [placed_ite]
  rfl

/- nor the parentheses of a group, -/
theorem trackGroup_placed
    (c : Char) :
    (s.placed k b).trackGroup c =
      (s.trackGroup c).placed k b := by
  unfold trackGroup
  rw [placed_ite, placed_ite]
  rfl

/- nor a semicolon, -/
theorem terminate_placed :
    (s.placed k b).terminate = s.terminate.placed k b := by
  unfold terminate
  rw [placed_ite]
  rfl

/- nor the start of a comment, -/
theorem openComment_placed :
    (s.placed k b).openComment =
      s.openComment.placed .opening b := by
  have hLast :
      (s.placed k b).trimmed.last? = s.trimmed.last? := rfl
  unfold openComment
  simp only [hLast]
  split <;> rfl

/- nor the start of a block, -/
theorem openBlock_placed :
    (s.placed k b).openBlock =
      (s.openBlock.placed k b).skips := by
  rfl

/- nor its end, where a line feed follows before more, -/
theorem closeBlock_placed
    (rest : Text) :
    (s.placed k b).closeBlock rest =
      ((if rest.all isBlank then s.closeBlock []
        else (s.closeBlock []).write ['\n']).placed
          k b).skips := by
  have hEnded :
      (if (s.placed k b).trimmed.inValue = true ∧
          (s.placed k b).trimmed.last? ≠ none then
        (s.placed k b).trimmed.terminate
      else (s.placed k b).trimmed) =
        (if s.trimmed.inValue = true ∧
            s.trimmed.last? ≠ none then s.trimmed.terminate
          else s.trimmed).placed k b := by
    have hTrimmed :
        (s.placed k b).trimmed = s.trimmed.placed k b := rfl
    rw [placed_ite, hTrimmed, terminate_placed]
    rfl
  unfold closeBlock
  simp only [hEnded]
  split <;> rfl

/- nor the end of a declaration, -/
theorem endDeclaration_placed :
    (s.placed k b).endDeclaration =
      (s.endDeclaration.placed k b).skips := by
  have hTrimmed :
      (s.placed k b).trimmed = s.trimmed.placed k b := rfl
  unfold endDeclaration
  rw [hTrimmed, terminate_placed]
  rfl

/- nor a comma, -/
theorem readComma_placed :
    (s.placed k b).readComma =
      (s.readComma.placed k b).skips := by
  rfl

/- nor a colon. -/
theorem readColon_placed
    (rest : Text) :
    (s.placed k b).readColon rest =
      ((if s.inGroup ∨ selectorAhead rest then
          s.trimmed.write [':']
        else
          { s.trimmed.write [':', ' '] with
            inValue := true }).placed k b).skips := by
  by_cases hAhead : s.inGroup ∨ selectorAhead rest
  · rw [if_pos hAhead]
    exact if_pos hAhead
  · rw [if_neg hAhead]
    exact if_neg hAhead

/-
  At the end only code can leave a declaration open.
-/
theorem result_placed
    {k l : Context}
    (hContext : k = .code ↔ l = .code)
    (b d : Option Char) :
    (s.placed k b).result = (s.placed l d).result := by
  have hEnded :
      ((s.placed k b).trimmed.context = .code ∧
          (s.placed k b).trimmed.inValue = true) ↔
        ((s.placed l d).trimmed.context = .code ∧
          (s.placed l d).trimmed.inValue = true) :=
    and_congr_left fun _ => hContext
  have hTrimmed (m : Context) (e : Option Char) :
      (s.placed m e).trimmed = s.trimmed.placed m e := rfl
  unfold result
  simp only [hEnded]
  simp only [hTrimmed, terminate_placed]
  split <;> rfl

/- A character that is not skipped is read as any other. -/
theorem step_skips
    {c : Char}
    (rest : Text)
    (hc : isBlank c = false) :
    (s.placed .code b).skips.step c rest =
      (s.placed .code b).step c rest := by
  have hTrack :
      (s.placed .code b).skips.trackGroup c =
        ((s.placed .code b).trackGroup c).skips := by
    unfold trackGroup
    rw [apply_ite skips, apply_ite skips]
    rfl
  have hCode :
      (s.placed .code b).skips.readCode c rest =
        (s.placed .code b).readCode c rest := by
    unfold readCode
    rw [hTrack]
    rfl
  have hRead (t : Scanner) (ht : t.context = .code) :
      t.read c rest = t.readCode c rest := by
    simp [read, ht, hc]
  rw [step, step, hRead _ rfl, hRead _ rfl, hCode]

end Scanner

end Stylesheet

end WebTidy

------------------------------------------------------------
-- Results
------------------------------------------------------------

namespace WebTidy

namespace Stylesheet

namespace Cursor

/- The context of the scanner that reads on. -/
def Lexical.context :
    Lexical → Context
| .code => .code
| .comment => .comment false
| .quoted mark => .quoted mark false

/-
  What the scanner ends with that reads on from an index,
  behind the character in front of it.
-/
def resultAt
    (src : Text)
    (i : Nat)
    (lexical : Lexical)
    (page : Scanner) :
    Text :=
  ((page.placed lexical.context
    (src.take i).getLast?).run (src.drop i)).result

/- The last character in front of a later index. -/
theorem getLast?_take_add
    (src : Text)
    (i n : Nat) :
    (src.take (i + n)).getLast? =
      ((src.drop i).take n).getLast?.or
        (src.take i).getLast? := by
  rw [List.take_add, List.getLast?_append]

variable
  {src rest : Text}
  {c : Char}
  {i : Nat}

/- The scanner that has read one character more. -/
theorem resultAt_succ
    (hDrop : src.drop i = c :: rest)
    (lexical : Lexical)
    (page : Scanner) :
    resultAt src (i + 1) lexical page =
      ((page.placed lexical.context (some c)).run
        rest).result := by
  have hLast : (src.take (i + 1)).getLast? = some c := by
    rw [getLast?_take_add, hDrop]
    rfl
  rw [resultAt, hLast, Octet.drop_succ_of_drop hDrop]

/- The scanner that has read two. -/
theorem resultAt_add_two
    {d : Char}
    (hDrop : src.drop i = c :: d :: rest)
    (lexical : Lexical)
    (page : Scanner) :
    resultAt src (i + 2) lexical page =
      ((page.placed lexical.context (some d)).run
        rest).result :=
  resultAt_succ (Octet.drop_succ_of_drop hDrop) lexical page

/- The scanner at the end. -/
theorem resultAt_end
    (hEnd : ¬ i < src.length)
    (lexical : Lexical)
    (page : Scanner) :
    resultAt src i lexical page =
      (page.placed lexical.context none).result := by
  rw [resultAt, List.drop_of_length_le (Nat.le_of_not_lt hEnd)]
  exact Scanner.result_placed page Iff.rfl _ none

/-
  The scanner behind a hinge, which skips the blanks that
  are passed over at once.
-/
theorem resultAt_passed
    (hDrop : src.drop i = c :: rest)
    (page : Scanner) :
    resultAt src
        (i + 1 + (rest.takeWhile isBlank).length)
        .code page =
      ((page.placed .code (some c)).skips.run
        rest).result := by
  have hNext := Octet.drop_succ_of_drop hDrop
  have hBlanks :
      (rest.takeWhile isBlank).all isBlank = true :=
    List.all_takeWhile
  have hSplit :
      rest = rest.takeWhile isBlank ++
        rest.dropWhile isBlank :=
    List.takeWhile_append_dropWhile.symm
  have hTake :
      rest.take (rest.takeWhile isBlank).length =
        rest.takeWhile isBlank :=
    (List.prefix_iff_eq_take.mp
      (List.takeWhile_prefix isBlank)).symm
  have hBehind :
      src.drop (i + 1 + (rest.takeWhile isBlank).length) =
        rest.dropWhile isBlank := by
    rw [← List.drop_drop, hNext,
      Octet.drop_length_takeWhile]
  have hLast : (src.take (i + 1)).getLast? = some c := by
    rw [getLast?_take_add, hDrop]
    rfl
  have hRemember (q : Option Char) :
      (page.placed .code (some c)).skips.remember q =
        (page.placed .code q).skips := rfl
  conv_rhs => rw [hSplit, Scanner.run_append]
  rw [Scanner.through_skipping _ rfl rfl hBlanks, hRemember,
    resultAt, hBehind, getLast?_take_add, hNext, hTake, hLast]
  -- Only the first character behind the blanks could tell.
  cases hMore : rest.dropWhile isBlank with
  | nil => exact Scanner.result_of_calm rfl
  | cons d more =>
      have hd : isBlank d = false := by
        have hHead := List.head?_dropWhile_not isBlank rest
        rw [hMore] at hHead
        simpa using hHead
      rw [Scanner.run, Scanner.run, Scanner.step_skips page _ more hd]
      rfl

/- The stop behind the blanks after a stop. -/
theorem passBlanks_eq
    (src : Text)
    {start : Nat}
    (stop : Stop start) :
    ∃ later,
      passBlanks src stop =
        .ok
          { index := stop.index +
              ((src.drop stop.index).takeWhile isBlank).length
            lexical := stop.lexical
            page := stop.page
            later := later } := by
  refine ⟨Nat.lt_of_lt_of_le stop.later
    (Nat.le_add_right _ _), ?_⟩
  rw [passBlanks, Octet.skipWhile_eq]
  rfl

end Cursor

end Stylesheet

end WebTidy

------------------------------------------------------------
-- Characters Of Code
------------------------------------------------------------

namespace WebTidy

namespace Stylesheet

namespace Cursor

variable
  {src rest : Text}
  {c : Char}
  {i : Nat}

/-
  A stop and a scanner that has just read a character end
  with the same result.
-/
def Agrees
    (src : Text)
    (c : Char)
    (rest : Text)
    (stop : Stop i)
    (s : Scanner) :
    Prop :=
  resultAt src stop.index stop.lexical stop.page =
    ((s.remember (some c)).run rest).result

/- A character that is read alone. -/
theorem agrees_succ
    (hDrop : src.drop i = c :: rest)
    (lexical : Lexical)
    (page : Scanner)
    (before : Option Char) :
    Agrees src c rest
      { index := i + 1
        lexical := lexical
        page := page
        later := Nat.lt_succ_self i }
      (page.placed lexical.context before) := by
  exact resultAt_succ hDrop lexical page

/-
  The blanks behind a hinge are passed over, whatever is
  written behind them then.
-/
theorem exists_passed
    (hDrop : src.drop i = c :: rest)
    (page : Scanner)
    (before : Option Char)
    (later : i < i + 1) :
    ∃ stop : Stop i,
      passBlanks src
          { index := i + 1
            lexical := .code
            page := page
            later := later } =
        .ok stop ∧
      stop.page = page ∧
      (stop.index < src.length ↔ ¬ rest.all isBlank) ∧
      ∀ after : Scanner,
        Agrees src c rest { stop with page := after }
          (after.placed .code before).skips := by
  have hNext := Octet.drop_succ_of_drop hDrop
  rcases passBlanks_eq src
      { index := i + 1
        lexical := .code
        page := page
        later := later } with
    ⟨hLater, hPass⟩
  simp only [hNext] at hLater hPass
  refine ⟨_, hPass, rfl, ?_, ?_⟩
  · have hLength := congrArg List.length hNext
    have hSplit := congrArg List.length
      (List.takeWhile_append_dropWhile
        (p := isBlank) (l := rest))
    rw [List.length_drop] at hLength
    rw [List.length_append] at hSplit
    have hAll :
        rest.all isBlank = true ↔
          (rest.dropWhile isBlank).length = 0 := by
      rw [List.length_eq_zero_iff, List.dropWhile_eq_nil_iff,
        List.all_eq_true]
    have hInside := Octet.lt_length_of_drop hDrop
    rw [hAll]
    simp only
    omega
  · intro after
    exact resultAt_passed hDrop after

/- So a hinge is read with the blanks behind it. -/
theorem exists_passBlanks
    (hDrop : src.drop i = c :: rest)
    (page : Scanner)
    (before : Option Char)
    (later : i < i + 1) :
    ∃ stop : Stop i,
      passBlanks src
          { index := i + 1
            lexical := .code
            page := page
            later := later } =
        .ok stop ∧
      Agrees src c rest stop
        (page.placed .code before).skips := by
  rcases exists_passed hDrop page before later with
    ⟨stop, hStop, hPage, _, hAgrees⟩
  refine ⟨stop, hStop, ?_⟩
  subst hPage
  exact hAgrees stop.page

/- The parentheses of a calc expression are followed. -/
theorem trackCalc_eq
    (hDrop : src.drop i = c :: rest)
    (page : Scanner) :
    trackCalc src i page c = .ok (page.trackCalc c rest) := by
  have hInside := Octet.lt_length_of_drop hDrop
  unfold trackCalc beginsCalc Scanner.trackCalc
  by_cases hNone : page.parens = none
  · rw [if_pos hNone, Octet.sliceFrom_eq (by omega), hDrop]
    simp only [hNone, true_and, Octet.ok_bind,
      Octet.beginsWith_eq]
    rfl
  · rw [if_neg hNone]
    simp only [hNone, false_and, if_false]
    rfl

/- The characters around a minus are looked up. -/
theorem isHyphen_eq
    (hDrop : src.drop i = c :: rest)
    (page : Scanner) :
    isHyphen src i c =
      .ok ((page.placed .code (src.take i).getLast?).isHyphen
        c rest) := by
  have hBefore :
      before? src i = .ok (src.take i).getLast? := by
    have hInside := Octet.lt_length_of_drop hDrop
    cases i with
    | zero => rfl
    | succ k =>
        have hk : k < src.length := by omega
        have hItem :
            src.drop k = src[k] :: src.drop (k + 1) :=
          List.drop_eq_getElem_cons hk
        rw [before?, Octet.itemAt_of_drop hItem,
          getLast?_take_add, hItem]
        rfl
  have hPlaced :
      (page.placed .code (src.take i).getLast?).isHyphen
          c rest =
        decide (c = '-' ∧
          (src.take i).getLast?.any isIdentChar ∧
            rest.head?.any isIdentStart) := rfl
  unfold isHyphen
  rw [hBefore, Octet.getElem?_succ_of_drop hDrop, hPlaced]
  split
  · rename_i hMinus
    simp only [hMinus, true_and, Bool.decide_and,
      Bool.decide_eq_true, Octet.ok_bind]
    rfl
  · rename_i hMinus
    simp only [hMinus, false_and, decide_false]
    rfl

/- The next structural character is looked up. -/
theorem selectorAhead_eq
    (src : Text)
    (i : Nat) :
    selectorAhead src i =
      .ok (Stylesheet.selectorAhead (src.drop i)) := by
  unfold selectorAhead Stylesheet.selectorAhead
  rw [List.find?_eq_bind_findIdx?_getElem?]
  simp only
  cases hFound : (src.drop i).findIdx? fun c =>
      c = '{' ∨ c = ';' ∨ c = '}' with
  | none => rfl
  | some p =>
      rcases List.findIdx?_eq_some_iff_getElem.mp hFound with
        ⟨hInside, _⟩
      have hItem :
          (src.drop i)[p]? = some (src.drop i)[p] :=
        List.getElem?_eq_getElem hInside
      simp only [Octet.itemAt_of_getElem? hItem,
        Octet.ok_bind, Option.bind_some, hItem,
        Option.some_inj]
      rfl

section Code

variable
  (hDrop : src.drop i = c :: rest)
  (page : Scanner)

include hDrop

/- An operator is read as the scanner reads it, -/
theorem exists_readOperator :
    ∃ stop,
      readOperator src i page c = .ok stop ∧
      Agrees src c rest stop
        ((page.placed .code
          (src.take i).getLast?).readOperator c rest) := by
  unfold readOperator Scanner.readOperator
  rw [Octet.getElem?_succ_of_drop hDrop]
  split
  · rename_i hDashes
    rcases List.head?_eq_some_iff.mp hDashes.2 with
      ⟨more, rfl⟩
    refine ⟨_, rfl, ?_⟩
    rw [Agrees, resultAt_add_two hDrop, hDashes.1]
    rfl
  · rw [isHyphen_eq hDrop page, Octet.ok_bind]
    have hSign :
        (page.placed .code (src.take i).getLast?).isSign c =
          page.isSign c := rfl
    rw [hSign]
    split
    · refine ⟨_, rfl, ?_⟩
      rw [Scanner.put_placed]
      exact agrees_succ hDrop .code _ _
    · exact exists_passBlanks hDrop
        (page.trimmed.write [' ', c, ' '])
        (src.take i).getLast? _

/- a character of a value, -/
theorem exists_readValue :
    ∃ stop,
      readValue src i page c = .ok stop ∧
      Agrees src c rest stop
        ((page.placed .code
          (src.take i).getLast?).readValue c rest) := by
  have hTrack :
      (page.placed .code (src.take i).getLast?).trackCalc
          c rest =
        (page.trackCalc c rest).placed .code
          (src.take i).getLast? := rfl
  unfold readValue Scanner.readValue
  rw [trackCalc_eq hDrop, Octet.ok_bind, hTrack]
  generalize page.trackCalc c rest = t
  simp only
  by_cases hOperator : t.parens.isSome ∧ isOperator c
  · rw [if_pos hOperator]
    rcases exists_readOperator hDrop t with
      ⟨stop, hStop, hAgrees⟩
    refine ⟨stop, hStop, ?_⟩
    rwa [if_pos (c := (t.placed .code _).parens.isSome ∧ _)
      hOperator]
  · rw [if_neg hOperator]
    refine ⟨_, rfl, ?_⟩
    have hAgrees := agrees_succ hDrop .code
      (if isBlank c then
        if t.takesSpace then t.write [' '] else t
      else if c = ')' then t.trimmed.put c
      else t.put c)
      (src.take i).getLast?
    rw [if_neg (c := (t.placed .code _).parens.isSome ∧ _)
      hOperator]
    rw [Scanner.placed_ite, Scanner.placed_ite,
      Scanner.placed_ite, ← Scanner.put_placed,
      ← Scanner.put_placed] at hAgrees
    exact hAgrees

/- any plain character, -/
theorem exists_readPlain :
    ∃ stop,
      readPlain src i page c = .ok stop ∧
      Agrees src c rest stop
        ((page.placed .code
          (src.take i).getLast?).readPlain c rest) := by
  unfold readPlain Scanner.readPlain
  by_cases hValue : page.inValue = true
  · rw [if_pos hValue]
    rcases exists_readValue hDrop page with
      ⟨stop, hStop, hAgrees⟩
    refine ⟨stop, hStop, ?_⟩
    rwa [if_pos (c := (page.placed .code _).inValue = true)
      hValue]
  · rw [if_neg hValue]
    refine ⟨_, rfl, ?_⟩
    have hAgrees := agrees_succ hDrop .code
      (if isBlank c ∧ page.atLineStart then page
        else page.put c)
      (src.take i).getLast?
    rw [if_neg (c := (page.placed .code _).inValue = true)
      hValue]
    rw [Scanner.placed_ite, ← Scanner.put_placed] at hAgrees
    exact hAgrees

/- the end of a block, -/
theorem exists_closeBlock :
    ∃ stop,
      closeBlock src i page = .ok stop ∧
      Agrees src c rest stop
        ((page.placed .code
          (src.take i).getLast?).closeBlock rest) := by
  rcases exists_passed hDrop (page.closeBlock [])
      (src.take i).getLast? (by omega) with
    ⟨stop, hStop, hPage, hEnd, hAgrees⟩
  unfold closeBlock
  rw [hStop, Octet.ok_bind, hPage, Scanner.closeBlock_placed]
  by_cases hMore : stop.index < src.length
  · rw [if_pos hMore, if_neg (hEnd.mp hMore)]
    exact ⟨_, rfl, hAgrees _⟩
  · rw [if_neg hMore, if_pos (not_not.mp (mt hEnd.mpr hMore))]
    refine ⟨stop, rfl, ?_⟩
    have hSame := hAgrees (page.closeBlock [])
    rw [← hPage] at hSame ⊢
    exact hSame

/- a colon, -/
theorem exists_readColon :
    ∃ stop,
      readColon src i page = .ok stop ∧
      Agrees src c rest stop
        ((page.placed .code
          (src.take i).getLast?).readColon rest) := by
  have hSelector :
      isSelectorColon src i page =
        .ok (page.inGroup ||
          Stylesheet.selectorAhead rest) := by
    rw [isSelectorColon, selectorAhead_eq,
      Octet.drop_succ_of_drop hDrop]
    cases page.inGroup <;> rfl
  have hPage :
      (if (page.inGroup || Stylesheet.selectorAhead rest) then
          page.trimmed.write [':']
        else
          { page.trimmed.write [':', ' '] with
            inValue := true }) =
        if page.inGroup ∨ Stylesheet.selectorAhead rest then
          page.trimmed.write [':']
        else
          { page.trimmed.write [':', ' '] with
            inValue := true } := by
    simp only [Bool.or_eq_true]
  unfold readColon
  rw [hSelector, Octet.ok_bind, hPage,
    Scanner.readColon_placed]
  exact exists_passBlanks hDrop _ _ _

/- and any character of code. -/
theorem exists_readCode :
    ∃ stop,
      readCode src i page = .ok stop ∧
      resultAt src stop.index stop.lexical stop.page =
        resultAt src i .code page := by
  have hStep :
      resultAt src i .code page =
        ((((page.placed .code
          (src.take i).getLast?).readCode c rest).remember
            (some c)).run rest).result := by
    rw [resultAt, hDrop, Scanner.run]
    rfl
  have hTrack :
      { (page.placed .code (src.take i).getLast?).trackGroup
          c with skipping := false } =
        (page.trackGroup c).placed .code
          (src.take i).getLast? := by
    rw [Scanner.trackGroup_placed]
    rfl
  rw [hStep]
  unfold readCode Scanner.readCode
  rw [Octet.itemAt_of_drop hDrop, Octet.ok_bind, hTrack,
    Octet.getElem?_succ_of_drop hDrop]
  generalize page.trackGroup c = t
  have hValue :
      (t.placed .code (src.take i).getLast?).inValue =
        t.inValue := rfl
  simp only [hValue]
  split
  · rename_i hOpens
    rcases List.head?_eq_some_iff.mp hOpens.2 with
      ⟨more, rfl⟩
    refine ⟨_, rfl, ?_⟩
    rw [Scanner.openComment_placed]
    exact resultAt_add_two hDrop .comment _
  · split
    · refine ⟨_, rfl, ?_⟩
      rw [Scanner.put_placed]
      exact agrees_succ hDrop (.quoted c) _ none
    · split
      · rw [Scanner.openBlock_placed]
        exact exists_passBlanks hDrop _ _ _
      · split
        · exact exists_closeBlock hDrop t
        · split
          · rw [Scanner.endDeclaration_placed]
            exact exists_passBlanks hDrop _ _ _
          · split
            · rw [Scanner.readComma_placed]
              exact exists_passBlanks hDrop _ _ _
            · split
              · exact exists_readColon hDrop t
              · exact exists_readPlain hDrop t

end Code

end Cursor

end Stylesheet

end WebTidy

------------------------------------------------------------
-- Comments And Strings
------------------------------------------------------------

namespace WebTidy

namespace Stylesheet

namespace Cursor

variable
  {src rest : Text}
  {c : Char}

/- What is copied of a comment is there. -/
theorem exists_readComment
    {i : Nat}
    (hInside : i < src.length)
    (page : Scanner) :
    ∃ stop,
      readComment src i hInside page = .ok stop ∧
      resultAt src stop.index stop.lexical stop.page =
        resultAt src i .comment page := by
  have hRest := Octet.sliceFrom_eq (s := src) hInside.le
  have hContext :
      (page.placed (.comment false)
        (src.take i).getLast?).context = .comment false := rfl
  unfold readComment
  rw [hRest, Octet.ok_bind]
  cases hEnd : Text.indexOf? "*/".toList (src.drop i) with
  | none =>
      refine ⟨_, rfl, ?_⟩
      rcases Scanner.run_comment_open hContext (by simp) hEnd
        with ⟨last, hRun⟩
      have hCopied :
          (page.placed (.comment false)
              (src.take i).getLast?).copied (src.drop i)
              (.comment last) =
            (page.write (src.drop i)).placed (.comment last)
              ((src.drop i).getLast?.or
                (src.take i).getLast?) := rfl
      have hResult :
          resultAt src i .comment page =
            ((page.write (src.drop i)).placed (.comment last)
              ((src.drop i).getLast?.or
                (src.take i).getLast?)).result := by
        rw [← hCopied, ← hRun]
        rfl
      rw [hResult, resultAt_end (Nat.lt_irrefl _)]
      exact Scanner.result_placed _ (by simp [Lexical.context])
        _ _
  | some p =>
      have hLength := Text.length_le_of_indexOf? hEnd
      have hBody :
          Octet.sliceTo (src.drop i) (p + 2) =
            .ok ((src.drop i).take (p + 2)) :=
        Octet.sliceTo_eq hLength
      simp only [hBody, Octet.ok_bind]
      refine ⟨_, rfl, ?_⟩
      have hRun :=
        Scanner.run_comment hContext (by simp) hEnd
      have hDrop :
          src.drop (i + p + 2) =
            (src.drop i).drop (p + 2) := by
        rw [List.drop_drop, Nat.add_assoc]
      have hLast :
          (src.take (i + p + 2)).getLast? =
            ((src.drop i).take (p + 2)).getLast?.or
              (src.take i).getLast? :=
        getLast?_take_add src i (p + 2)
      have hOld :
          resultAt src i .comment page =
            (((page.write ((src.drop i).take (p + 2))).placed
              .code
              (((src.drop i).take (p + 2)).getLast?.or
                (src.take i).getLast?)).run
              ((src.drop i).drop (p + 2))).result :=
        congrArg Scanner.result hRun
      rw [hOld, ← hDrop, ← hLast]
      rfl

/- A character of a string is copied, and a string ends. -/
theorem resultAt_quoted
    {i : Nat}
    (hDrop : src.drop i = c :: rest)
    (mark : Char)
    (page : Scanner) :
    resultAt src i (.quoted mark) page =
      (((page.write [c]).placed
        (Scanner.afterQuoted mark false c)
        (some c)).run rest).result := by
  rw [resultAt, hDrop, Scanner.run,
    Scanner.step_quoted c _ rfl]
  rfl

/- What is copied of a string is there. -/
theorem exists_readQuoted
    (mark : Char)
    {start i : Nat}
    (hStart : start < i ∨ start = i ∧ i < src.length)
    (page : Scanner) :
    ∃ stop,
      readQuoted src mark i hStart page = .ok stop ∧
      resultAt src stop.index stop.lexical stop.page =
        resultAt src i (.quoted mark) page := by
  -- A backslash takes two characters at once.
  induction hLeft : src.length - i
    using Nat.strong_induction_on
    generalizing i page with
  | _ left ih =>
      rw [readQuoted]
      by_cases hInside : i < src.length
      · have hDrop := List.drop_eq_getElem_cons hInside
        generalize src[i] = c at hDrop
        rw [dif_pos hInside, Octet.itemAt_of_drop hDrop,
          Octet.ok_bind, resultAt_quoted hDrop]
        by_cases hSlash : c = '\\'
        · have hAfter :
              Scanner.afterQuoted mark false c =
                .quoted mark true :=
            hSlash ▸ afterQuoted_slash mark
          rw [if_pos hSlash, hAfter]
          cases hNext : src[i + 1]? with
          | none =>
              rcases ih (src.length - (i + 1)) (by omega)
                  (i := i + 1) (by omega) (page.write [c]) rfl
                with ⟨stop, hStop, hSame⟩
              refine ⟨stop, hStop, ?_⟩
              have hEnd : ¬ i + 1 < src.length := by
                simpa using hNext
              rw [hSame, resultAt_end hEnd,
                List.drop_of_length_le (by omega)]
              exact Scanner.result_placed _
                (by simp [Lexical.context]) _ _
          | some d =>
              rcases ih (src.length - (i + 2)) (by omega)
                  (i := i + 2) (by omega)
                  ((page.write [c]).write [d]) rfl with
                ⟨stop, hStop, hSame⟩
              refine ⟨stop, hStop, ?_⟩
              have hTwo :
                  src.drop i = c :: d :: src.drop (i + 2) := by
                rcases List.getElem?_eq_some_iff.mp hNext with
                  ⟨hInside, rfl⟩
                rw [hDrop, List.drop_eq_getElem_cons hInside]
              rw [hSame, resultAt_add_two hTwo,
                Octet.drop_succ_of_drop hTwo, Scanner.run,
                Scanner.step_quoted d _ rfl]
              rfl
        · rw [if_neg hSlash]
          by_cases hMark : c = mark
          · subst hMark
            rw [if_pos rfl, afterQuoted_mark hSlash]
            exact ⟨_, rfl, resultAt_succ hDrop .code _⟩
          · rw [if_neg hMark, afterQuoted_other hSlash hMark]
            rcases ih (src.length - (i + 1)) (by omega)
                (i := i + 1) (by omega) (page.write [c]) rfl
              with ⟨stop, hStop, hSame⟩
            refine ⟨stop, hStop, ?_⟩
            rw [hSame]
            exact resultAt_succ hDrop (.quoted mark) _
      · rw [dif_neg hInside]
        exact ⟨_, rfl, rfl⟩

end Cursor

end Stylesheet

end WebTidy

------------------------------------------------------------
-- Style Sheets
------------------------------------------------------------

namespace WebTidy

namespace Stylesheet

namespace Cursor

/- A step succeeds, and keeps the result. -/
theorem exists_step
    {src : Text}
    {i : Nat}
    (hInside : i < src.length)
    (lexical : Lexical)
    (page : Scanner) :
    ∃ stop,
      step src i hInside page lexical = .ok stop ∧
      resultAt src stop.index stop.lexical stop.page =
        resultAt src i lexical page := by
  cases lexical with
  | code =>
      exact exists_readCode
        (List.drop_eq_getElem_cons hInside) page
  | comment => exact exists_readComment hInside page
  | quoted mark => exact exists_readQuoted mark _ page

/- At the end the result is written. -/
theorem finish_eq
    (lexical : Lexical)
    (page : Scanner) :
    finish lexical page =
      .ok (page.placed lexical.context none).result := by
  have hTrimmed :
      (page.placed lexical.context none).trimmed =
        page.trimmed.placed lexical.context none := rfl
  have hCode :
      (page.trimmed.placed lexical.context none).context =
          .code ↔
        lexical = .code := by
    cases lexical <;> simp [Scanner.placed, Lexical.context]
  have hValue :
      (page.trimmed.placed lexical.context none).inValue =
        page.trimmed.inValue := rfl
  have hLead (out : Text) :
      Octet.sliceFrom out (out.takeWhile isBlank).length =
        .ok (out.dropWhile isBlank) := by
    rw [Octet.sliceFrom_eq
      (List.takeWhile_prefix isBlank).length_le,
      Octet.drop_length_takeWhile]
  unfold finish Scanner.result
  simp only [hTrimmed, hCode, hValue,
    Scanner.terminate_placed, ← Scanner.placed_ite, hLead,
    Octet.ok_bind]
  rfl

/- So reading to the end succeeds with the result. -/
theorem run_eq
    (src : Text)
    (i : Nat)
    (lexical : Lexical)
    (page : Scanner) :
    run src i lexical page =
      .ok (resultAt src i lexical page) := by
  induction hLeft : src.length - i
    using Nat.strong_induction_on
    generalizing i lexical page with
  | _ left ih =>
      rw [run]
      by_cases hInside : i < src.length
      · rcases exists_step hInside lexical page with
          ⟨stop, hStop, hSame⟩
        have hLess : src.length - stop.index < left := by
          have hLater := stop.later
          omega
        rw [dif_pos hInside, hStop, Octet.ok_bind,
          ih _ hLess stop.index stop.lexical stop.page rfl,
          hSame]
      · rw [dif_neg hInside, finish_eq, resultAt_end hInside]

/-
  The layout by index looks up nothing that is not there,
  and it is the layout.
-/
theorem prettify_eq
    (src : Text) :
    prettify src = .ok (Stylesheet.prettify src) := by
  rw [prettify, run_eq]
  rfl

end Cursor

end Stylesheet

end WebTidy
