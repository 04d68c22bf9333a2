import WebTidy.Markup.Indexed.Tokens
import WebTidy.Proofs.Markup.Indexed.Tags
import WebTidy.Proofs.Markup.Octets.Tokens

/-
  Tokens by an index: every look-up lies inside the octets.

  The segment at an index is the first token of what is left
  behind it.  A token is cut out where the token before it
  ended, so both of its ends are boundaries.

  Key theorems include:
    * `WebTidy.Markup.Indexed.exists_verbatimEnd`
    * `WebTidy.Markup.Indexed.exists_segmentAt`
    * `WebTidy.Markup.Indexed.scan_eq`
-/

------------------------------------------------------------
-- End Tags
------------------------------------------------------------

namespace WebTidy

namespace Markup

/- An end tag begins with its opening marks. -/
theorem endTagLength?_eq_none
    (name : Text)
    {s : Text}
    (h : ¬ "</".toList <+: s) :
    endTagLength? name s = none := by
  exact if_neg fun hEnd => h hEnd.1

/- Without opening marks there is no end tag. -/
theorem throughEndTag?_of_indexOf?_none
    {name s : Text}
    (h : Text.indexOf? "</".toList s = none) :
    throughEndTag? name s = none := by
  induction s with
  | nil => rfl
  | cons c rest ih =>
      rw [Text.indexOf?] at h
      split at h
      · cases h
      · rename_i hPrefix
        rw [throughEndTag?, endTagLength?_eq_none name hPrefix,
          ih (Option.map_eq_none_iff.mp h)]
        rfl

/- The first end tag does not begin in front of them. -/
theorem throughEndTag?_of_indexOf?
    {name s : Text}
    {p : Nat}
    (h : Text.indexOf? "</".toList s = some p) :
    throughEndTag? name s =
      ((endTagLength? name (s.drop p)).or
        ((throughEndTag? name (s.drop (p + 2))).map
          (· + 2))).map (· + p) := by
  induction s generalizing p with
  | nil => cases h
  | cons c rest ih =>
      rw [Text.indexOf?] at h
      split at h
      · rename_i hPrefix
        cases h
        rcases hPrefix with ⟨more, hMore⟩
        have hMarks : c :: rest = '<' :: '/' :: more :=
          hMore.symm
        rw [hMarks]
        have hSlash :
            throughEndTag? name ('/' :: more) =
              (throughEndTag? name more).map (· + 1) := by
          rw [throughEndTag?,
            endTagLength?_eq_none name (by simp)]
        have hBehind :
            List.drop 2 ('<' :: '/' :: more) = more := rfl
        rw [throughEndTag?, hSlash, List.drop_zero,
          Nat.zero_add, hBehind]
        cases endTagLength? name ('<' :: '/' :: more) with
        | some n => rfl
        | none =>
            cases throughEndTag? name more with
            | none => rfl
            | some n => rfl
      · rename_i hPrefix
        rcases Option.map_eq_some_iff.mp h with ⟨m, hm, rfl⟩
        rw [throughEndTag?, endTagLength?_eq_none name hPrefix]
        simp only
        rw [ih hm, Option.map_map, List.drop_succ_cons]
        rfl

namespace Indexed

/-
  An end that is found by index is as far behind the index
  as the length that is found there, or there is neither.
-/
theorem behind_cases
    {i : Nat}
    {found : Behind? i}
    {length : Option Nat}
    (h : found.map Subtype.val = length.map (· + i)) :
    (found = none ∧ length = none) ∨
      ∃ stop n,
        found = some stop ∧
        length = some n ∧
        stop.val = i + n := by
  cases found with
  | none =>
      exact Or.inl ⟨rfl, Option.map_eq_none_iff.mp h.symm⟩
  | some stop =>
      cases length with
      | none => cases h
      | some n =>
          have hStop : stop.val = n + i := Option.some.inj h
          exact Or.inr ⟨stop, n, rfl, rfl, by omega⟩

/- An index moved twice is moved by the sum. -/
theorem map_add_map_add
    (found : Option Nat)
    (j k : Nat) :
    (found.map (· + j)).map (· + k) =
      found.map (· + (j + k)) := by
  rw [Option.map_map]
  congr 1
  funext n
  exact Nat.add_assoc n j k

/- An end tag ends inside the octets. -/
theorem exists_endTagAt
    (name : Text)
    {s : Text}
    {i : Nat}
    (hMarks : "</".toList <+: s.drop i) :
    ∃ found,
      endTagAt name s i = .ok found ∧
      found.map Subtype.val =
        (endTagLength? name (s.drop i)).map (· + i) := by
  have hName :
      (s.take (i + 2 + name.length)).drop (i + 2) =
        ((s.drop i).drop 2).take name.length := by
    rw [List.drop_take, List.drop_drop, Nat.add_sub_cancel_left]
  have hBehind :
      s.drop (i + 2 + name.length) =
        (s.drop i).drop (2 + name.length) := by
    rw [List.drop_drop, Nat.add_assoc]
  have hClose (blanks : Nat) :
      (s[i + 2 + name.length + blanks]?.any (· = '>')) =
        decide
          ((s.drop i)[2 + name.length + blanks]? = some '>') := by
    rw [List.getElem?_drop, ← Nat.add_assoc, ← Nat.add_assoc]
    cases s[i + 2 + name.length + blanks]? with
    | none => rfl
    | some c => simp
  unfold endTagAt endTagLength?
  simp only [hMarks, true_and]
  by_cases hInside : i + 2 + name.length ≤ s.length
  · rw [if_pos hInside, Octet.slice_eq (by omega) hInside,
      Octet.ok_bind, hName, Octet.skipWhile_eq, Octet.ok_bind,
      hBehind]
    generalize (List.takeWhile isBlank _).length = blanks
    cases hSame : Text.sameLetters
        (((s.drop i).drop 2).take name.length) name with
    | false =>
        rw [if_neg (by simp), if_neg (by simp)]
        exact ⟨none, rfl, rfl⟩
    | true =>
        simp only [Octet.holdsAt_eq, Octet.ok_bind, hClose,
          true_and, if_true, decide_eq_true_eq]
        split
        · refine ⟨_, rfl, congrArg some ?_⟩
          change i + 2 + name.length + blanks + 1 =
            2 + name.length + blanks + 1 + i
          omega
        · exact ⟨none, rfl, rfl⟩
  · have hShort :
        Text.sameLetters
          (((s.drop i).drop 2).take name.length) name =
            false := by
      rw [Bool.eq_false_iff]
      intro hSame
      have hSize := Text.length_eq_of_sameLetters hSame
      rw [List.length_take, List.length_drop,
        List.length_drop] at hSize
      have hMarks := hMarks.length_le
      rw [List.length_drop] at hMarks
      change 2 ≤ _ at hMarks
      omega
    rw [if_neg hInside, hShort, if_neg (by simp)]
    exact ⟨none, rfl, rfl⟩

/- The end of the first one is found, or there is none. -/
theorem exists_endTagFrom
    (name s : Text)
    {i : Nat}
    (hInside : i ≤ s.length) :
    ∃ found,
      endTagFrom name s i = .ok found ∧
      found.map Subtype.val =
        (throughEndTag? name (s.drop i)).map (· + i) := by
  -- The search goes on behind the marks of other end tags.
  induction hLeft : s.length - i
    using Nat.strong_induction_on
    generalizing i with
  | _ left ih =>
      rw [endTagFrom, Octet.sliceFrom_eq hInside,
        Octet.ok_bind]
      by_cases hMore : i < s.length
      · rw [if_pos hMore]
        cases hFind : Text.indexOf? "</".toList (s.drop i) with
        | none =>
            rw [throughEndTag?_of_indexOf?_none hFind]
            exact ⟨none, rfl, rfl⟩
        | some p =>
            have hLength := Text.length_le_of_indexOf? hFind
            rw [List.length_drop] at hLength
            change p + 2 ≤ _ at hLength
            have hMarks := Text.prefix_of_indexOf? hFind
            rw [List.drop_drop] at hMarks
            rw [throughEndTag?_of_indexOf? hFind,
              List.drop_drop, List.drop_drop, ← Nat.add_assoc]
            rcases exists_endTagAt name hMarks with
              ⟨found, hFound, hHere⟩
            simp only [hFound, Octet.ok_bind]
            rcases behind_cases hHere with
              ⟨rfl, hNone⟩ | ⟨stop, n, rfl, hSome, hStop⟩
            · have hSum : i + p + 2 = 2 + (p + i) := by omega
              rcases ih (s.length - (i + p + 2)) (by omega)
                  (i := i + p + 2) (by omega) rfl with
                ⟨later, hLater, hThere⟩
              simp only [hLater, Octet.ok_bind]
              refine ⟨_, rfl, ?_⟩
              rw [hNone, Option.none_or, map_add_map_add,
                map_add_map_add, ← hSum, Option.map_map]
              exact hThere
            · have hSum : i + p + n = n + p + i := by omega
              rw [hSome]
              refine ⟨_, rfl, congrArg some ?_⟩
              exact hStop.trans hSum
      · have hEnd : s.drop i = [] :=
          List.drop_of_length_le (Nat.le_of_not_lt hMore)
        rw [if_neg hMore, hEnd]
        exact ⟨none, rfl, rfl⟩

/- So is the end of a verbatim element. -/
theorem exists_verbatimEnd
    {s : Text}
    {i : Nat}
    (hInside : i < s.length) :
    ∃ found,
      verbatimEnd s i = .ok found ∧
      found.map Subtype.val =
        (verbatimLength? (s.drop i)).map (· + i) := by
  have hInner : (s.drop i).drop 1 = s.drop (i + 1) :=
    List.drop_drop
  unfold verbatimEnd verbatimLength?
  simp only [Octet.skipWhile_eq, Octet.ok_bind,
    Octet.slice_takeWhile isNameChar hInside, hInner]
  have hLength :=
    (List.takeWhile_prefix (l := s.drop (i + 1))
      isNameChar).length_le
  rw [List.length_drop] at hLength
  generalize (s.drop (i + 1)).takeWhile isNameChar = name
    at hLength ⊢
  have hBehind :
      (s.drop i).drop (1 + name.length) =
        s.drop (i + 1 + name.length) := by
    rw [List.drop_drop, Nat.add_assoc]
  have hEnds :
      (s[i + 1 + name.length]?.any (!endsNameAt ·)) =
        !endsName (s.drop (i + 1 + name.length)) := by
    rw [endsName, List.head?_drop]
    cases s[i + 1 + name.length]? with
    | none => rfl
    | some c => rfl
  simp only [hBehind, Octet.holdsAt_eq, hEnds,
    Octet.ok_bind]
  cases hKnown : isVerbatim name with
  | false =>
      rw [if_pos (by simp), if_neg (by simp)]
      exact ⟨none, rfl, rfl⟩
  | true =>
      have hSome : name ≠ [] := by
        rintro rfl
        exact absurd hKnown (by decide)
      rw [if_neg (by simp [hSome])]
      cases hBoundary :
          endsName (s.drop (i + 1 + name.length)) with
      | false => exact ⟨none, rfl, rfl⟩
      | true =>
          rcases exists_endTagFrom name s
              (i := i + 1 + name.length) (by omega) with
            ⟨found, hFound, hSame⟩
          simp only [hFound, Octet.ok_bind, Bool.not_true,
            Bool.false_eq_true, if_false, and_self, if_true]
          have hSum :
              i + 1 + name.length = 1 + name.length + i := by
            omega
          refine ⟨_, rfl, ?_⟩
          rw [map_add_map_add, ← hSum, Option.map_map]
          exact hSame

/- So is the end of a comment or marker. -/
theorem exists_markerEnd
    {s : Text}
    {i : Nat}
    (hInside : i ≤ s.length) :
    ∃ found,
      markerEnd s i = .ok found ∧
      found.map Subtype.val =
        ((commentLength? (s.drop i)).or
          (markerLength? (s.drop i))).map (· + i) := by
  unfold markerEnd commentLength? markerLength?
  rw [Octet.sliceFrom_eq hInside, Octet.ok_bind]
  generalize s.drop i = r
  split
  · rename_i hComment
    have hNot : ¬ "<![".toList <+: r := by
      rintro ⟨more, rfl⟩
      exact absurd hComment (by simp)
    have hLength : 4 ≤ r.length := hComment.length_le
    rw [if_neg hNot, Option.or_none,
      Octet.sliceFrom_eq hLength, Octet.ok_bind]
    refine ⟨_, rfl, ?_⟩
    rw [Option.map_map, map_add_map_add]
    congr 1
    funext p
    change i + 4 + p + 3 = p + (7 + i)
    omega
  · split
    · rename_i hMarker
      have hLength : 3 ≤ r.length := hMarker.length_le
      rw [Option.none_or, Octet.sliceFrom_eq hLength,
        Octet.ok_bind]
      refine ⟨_, rfl, ?_⟩
      rw [Option.map_map, map_add_map_add]
      congr 1
      funext p
      change i + 3 + p + 2 = p + (5 + i)
      omega
    · exact ⟨none, rfl, rfl⟩

end Indexed

end Markup

end WebTidy

------------------------------------------------------------
-- Scanning
------------------------------------------------------------

namespace WebTidy

namespace Markup

namespace Indexed

/- The segment at an index is the first token behind it. -/
theorem exists_segmentAt
    {s : Text}
    {i : Nat}
    (hInside : i < s.length) :
    ∃ segment,
      segmentAt s i hInside = .ok segment ∧
      segment.stop = i + Token.firstLength (s.drop i) ∧
      segment.kind
          ((s.drop i).take (Token.firstLength (s.drop i))) =
        Token.first (s.drop i) := by
  have hDrop := List.drop_eq_getElem_cons hInside
  rcases exists_verbatimEnd hInside with
    ⟨verbatim, hVerbatim, hVerbatimEnd⟩
  rcases exists_markerEnd hInside.le with
    ⟨marker, hMarker, hMarkerEnd⟩
  rcases exists_endIndex s i with ⟨close, hClose, hCloseEnd⟩
  have hTag :
      Tag.endIndex? s i =
        (Tag.endIndex? (s.drop i) 0).map (· + i) := by
    have hSum : i + 1 = 0 + 1 + i := by omega
    rw [Tag.endIndex?, Tag.endIndex?, List.drop_drop,
      map_add_map_add, ← hSum]
  unfold segmentAt
  rw [Octet.itemAt_of_drop hDrop, Octet.ok_bind]
  by_cases hOpen : s[i] = '<'
  · have hHead : (s.drop i).head? = some '<' := by
      rw [hDrop, hOpen]
      rfl
    rw [if_pos hOpen, bracketAt]
    simp only [hVerbatim, Octet.ok_bind, Token.first,
      Token.firstLength, if_pos hHead]
    rcases behind_cases hVerbatimEnd with
      ⟨rfl, hNone⟩ | ⟨stop, n, rfl, hSome, hStop⟩
    · rw [hNone]
      simp only [hMarker, Octet.ok_bind]
      rcases behind_cases hMarkerEnd with
        ⟨rfl, hNone⟩ | ⟨stop, n, rfl, hSome, hStop⟩
      · rw [hNone]
        simp only [hClose, Octet.ok_bind]
        rcases behind_cases (hCloseEnd.trans hTag) with
          ⟨rfl, hNone⟩ | ⟨last, n, rfl, hSome, hLast⟩
        · rw [hNone]
          refine ⟨_, rfl, ?_, ?_⟩
          · change s.length = i + (s.drop i).length
            rw [List.length_drop]
            omega
          · exact congrArg Token.tag List.take_length
        · rw [hSome]
          refine ⟨_, rfl, ?_, rfl⟩
          change last.val + 1 = i + (n + 1)
          omega
      · rw [hSome]
        exact ⟨_, rfl, hStop, rfl⟩
    · rw [hSome]
      exact ⟨_, rfl, hStop, rfl⟩
  · have hHead : (s.drop i).head? ≠ some '<' := by
      rw [hDrop, List.head?_cons]
      exact fun hSame => hOpen (Option.some.inj hSame)
    have hLength :
        ((s.drop i).takeWhile (· ≠ '<')).length =
          ((s.drop i).tail.takeWhile (· ≠ '<')).length +
            1 := by
      have hText : decide (s[i] ≠ '<') = true :=
        decide_eq_true hOpen
      rw [hDrop, List.takeWhile_cons, if_pos hText]
      rfl
    rw [if_neg hOpen, Octet.sliceFrom_eq hInside.le,
      Octet.ok_bind]
    simp only [Token.first, Token.firstLength, if_neg hHead]
    refine ⟨_, rfl, ?_, ?_⟩
    · rw [hLength]
      simp only
      omega
    · rw [← Token.takeWhile_eq_take]

/- Boundaries are the same for what is left. -/
theorem isBoundary_drop
    {s : Text}
    {i : Nat}
    (hInside : i ≤ s.length)
    (n : Nat) :
    Octet.isBoundary (s.drop i) n =
      Octet.isBoundary s (i + n) := by
  have hLength :
      n ≤ s.length - i ↔ i + n ≤ s.length := by
    omega
  simp only [Octet.isBoundary, List.length_drop,
    List.getElem?_drop, hLength]

/-
  From a boundary on, all tokens are cut out as they are cut
  off one after the other.
-/
theorem scan_eq
    {s : Text}
    {i : Nat}
    (hStart : Octet.isBoundary s i = true) :
    scan s i = Octets.scan (s.drop i) := by
  induction hLeft : s.length - i
    using Nat.strong_induction_on
    generalizing i with
  | _ left ih =>
      by_cases hInside : i < s.length
      · have hSome : s.drop i ≠ [] := by
          rw [List.drop_eq_getElem_cons hInside]
          exact List.cons_ne_nil _ _
        rcases exists_segmentAt hInside with
          ⟨segment, hSegment, hStop, hKind⟩
        have hPos := Token.firstLength_pos hSome
        rw [scan, dif_pos hInside, hSegment, Octet.ok_bind,
          Octets.scan_eq hSome, isBoundary_drop hInside.le,
          ← hStop]
        cases hCut : Octet.isBoundary s segment.stop with
        | false =>
            rw [Octet.cutText, if_neg (by simp [hCut])]
            rfl
        | true =>
            have hSource :
                (s.take segment.stop).drop i =
                  (s.drop i).take
                    (Token.firstLength (s.drop i)) := by
              rw [List.drop_take, hStop,
                Nat.add_sub_cancel_left]
            rw [Octet.cutText_eq segment.later.le hStart hCut,
              Octet.ok_bind, hSource, hKind,
              ih (s.length - segment.stop) (by omega) hCut rfl,
              List.drop_drop, ← hStop]
            cases Octets.scan (s.drop segment.stop) with
            | error fault => rfl
            | ok tokens => rfl
      · have hEnd : s.drop i = [] :=
          List.drop_of_length_le (Nat.le_of_not_lt hInside)
        rw [scan, dif_neg hInside, hEnd, Octets.scan]
        rfl

end Indexed

end Markup

end WebTidy
