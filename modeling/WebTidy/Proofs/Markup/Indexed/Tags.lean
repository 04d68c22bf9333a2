import WebTidy.Markup.Indexed.Tags
import WebTidy.Proofs.Text
import WebTidy.Proofs.Text.Slice

/-
  Tags by an index: every look-up lies inside the octets,
  but for the name of an empty tag.

  Key theorems include:
    * `WebTidy.Markup.Indexed.exists_endIndex`
    * `WebTidy.Markup.Indexed.head_eq`
    * `WebTidy.Markup.Indexed.normalize_eq`
-/

------------------------------------------------------------
-- Ends And Heads
------------------------------------------------------------

namespace WebTidy

namespace Markup

namespace Indexed

/- The end of a tag is found inside the octets, or not. -/
theorem exists_closeFrom
    (s : Text)
    (mark : Option Char)
    (i : Nat) :
    ∃ found,
      closeFrom s mark i = .ok found ∧
      found.map Subtype.val =
        (Tag.closeIndex? mark (s.drop i)).map (· + i) := by
  -- The loop goes over what is left behind the index.
  induction hRest : s.drop i generalizing mark i with
  | nil =>
      have hEnd : ¬ i < s.length := by
        simpa using hRest
      rw [closeFrom, if_neg hEnd]
      exact ⟨none, rfl, by cases mark <;> rfl⟩
  | cons c rest ih =>
      have hNext (next : Option Char) :
          ∃ found,
            closeFrom s next (i + 1) = .ok found ∧
            found.map Subtype.val =
              (Tag.closeIndex? next rest).map
                (· + (i + 1)) :=
        ih next (i + 1) (Octet.drop_succ_of_drop hRest)
      have hShift (found : Option Nat) :
          found.map (· + (i + 1)) =
            (found.map (· + 1)).map (· + i) := by
        cases found with
        | none => rfl
        | some n =>
            change some (n + (i + 1)) = some (n + 1 + i)
            congr 1
            omega
      rw [closeFrom,
        if_pos (Octet.lt_length_of_drop hRest),
        Octet.itemAt_of_drop hRest, Octet.ok_bind]
      cases mark with
      | some quote =>
          rw [if_neg (by simp), Tag.closeIndex?, ← hShift]
          rcases hNext (if c = quote then none else some quote)
            with ⟨found, hFound, hSame⟩
          simp only [hFound, Octet.ok_bind]
          refine ⟨_, rfl, ?_⟩
          rw [← hSame, Option.map_map]
          rfl
      | none =>
          simp only [true_and]
          rw [Tag.closeIndex?]
          by_cases hClose : c = '>'
          · rw [if_pos hClose, if_pos hClose]
            exact ⟨_, rfl, congrArg some (Nat.zero_add i).symm⟩
          · rw [if_neg hClose, if_neg hClose, ← hShift]
            rcases hNext (if Tag.isQuote c then some c else none)
              with ⟨found, hFound, hSame⟩
            simp only [hFound, Octet.ok_bind]
            refine ⟨_, rfl, ?_⟩
            rw [← hSame, Option.map_map]
            rfl

theorem exists_endIndex
    (s : Text)
    (i : Nat) :
    ∃ found,
      endIndex s i = .ok found ∧
      found.map Subtype.val = Tag.endIndex? s i := by
  exact exists_closeFrom s none (i + 1)

/-
  Only an empty tag has no name that could be cut off, for
  its name would begin behind its end.
-/
theorem head_eq
    (tag : Text) :
    head tag =
      match Tag.headOfOctets? tag with
      | some head => .ok head
      | none => .error .outside := by
  unfold head
  simp only [Octet.holdsAt_eq, Octet.ok_bind,
    Octet.skipWhile_eq]
  cases tag with
  | nil => rfl
  | cons c rest =>
      have hEnd :
          (c :: rest)[1]?.any (· = '/') =
            decide (rest.head? = some '/') := by
        cases rest with
        | nil => rfl
        | cons d more => simp
      obtain ⟨k, hk⟩ :
          ∃ k, (if decide (rest.head? = some '/') = true then 2
            else 1) = k :=
        ⟨_, rfl⟩
      have hInside : k ≤ (c :: rest).length := by
        rw [← hk]
        split
        · rename_i hSlash
          rcases List.head?_eq_some_iff.mp
              (of_decide_eq_true hSlash) with
            ⟨more, rfl⟩
          simp
        · simp
      have hFirst :
          (c :: rest).drop k =
            if rest.head? = some '/' then rest.drop 1
            else rest := by
        rw [← hk]
        simp only [decide_eq_true_eq]
        split <;> rfl
      have hBehind :
          (c :: rest).drop
              (k + (((c :: rest).drop k).takeWhile
                isBlank).length) =
            ((c :: rest).drop k).dropWhile isBlank := by
        rw [← List.drop_drop, Octet.drop_length_takeWhile]
      have hStart :
          k + (((c :: rest).drop k).takeWhile
            isBlank).length ≤ (c :: rest).length := by
        have hLength :=
          (List.takeWhile_prefix
            (l := (c :: rest).drop k) isBlank).length_le
        rw [List.length_drop] at hLength
        omega
      rw [hEnd, hk, Octet.slice_takeWhile isNameChar hStart,
        hBehind, hFirst]
      rfl

/- A document type declaration is known by its beginning. -/
theorem isDoctype_eq
    (tag : Text) :
    isDoctype tag = .ok (Tag.isDoctype tag) := by
  exact Octet.beginsWith_eq _ tag

end Indexed

end Markup

end WebTidy

------------------------------------------------------------
-- Normal Form
------------------------------------------------------------

namespace WebTidy

namespace Text

/- Both ends can be trimmed in any order. -/
theorem dropWhile_trimEnd
    (p : Char → Bool)
    (s : Text) :
    (s.trimEnd p).dropWhile p = s.trim p := by
  rcases all_or_exists p s with
    hAll | ⟨lead, c, rest, rfl, hLead, hc⟩
  · have hNone : s.trimEnd p = [] := by
      have hSame := trimEnd_append (t := []) hAll rfl
      simpa using hSame
    rw [hNone, (trim_eq_nil_iff (s := s)).mpr hAll]
    rfl
  · rcases exists_trimEnd_append p rest with
      ⟨tail, hTail, hRest⟩
    have hCut :
        trimEnd p (lead ++ c :: rest) =
          lead ++ c :: trimEnd p rest := by
      conv_lhs =>
        rw [hRest, ← List.cons_append, ← List.append_assoc]
      apply trimEnd_append hTail
      rw [List.getLast?_append_of_ne_nil _ (List.cons_ne_nil _ _),
        ← trimEnd_cons rest hc]
      exact trimEnd_ends p _
    rw [hCut, dropWhile_append_cons _ hLead hc, trim,
      dropWhile_append_cons rest hLead hc, trimEnd_cons rest hc]

end Text

namespace Markup

namespace Indexed

theorem trimSpaces_eq
    (s : Text) :
    trimSpaces s = .ok (s.trim (· = ' ')) := by
  unfold trimSpaces
  simp only
  rw [Octet.sliceFrom_eq
    (List.takeWhile_prefix _).length_le,
    Octet.drop_length_takeWhile, Text.dropWhile_trimEnd]

/- What stands between the brackets is there. -/
theorem inside_eq
    (c d : Char)
    (rest : Text) :
    inside (c :: d :: rest) =
      .ok
        (if (d :: rest).getLast? = some '>' then
          (d :: rest).dropLast
        else d :: rest) := by
  unfold inside
  rw [List.getLast?_cons_cons]
  split
  · rw [Octet.slice_eq (by simp) (Nat.sub_le _ 1),
      ← List.dropLast_eq_take]
    rfl
  · rw [Octet.sliceFrom_eq (by simp)]
    rfl

/- The normal form of a tag looks up nothing outside it. -/
theorem normalize_eq
    (tag : Text) :
    normalize tag = .ok (Tag.normalizeOctets tag) := by
  have hOther (c : Char) (rest : Text) (hc : c ≠ '<') :
      Tag.normalizeOctets (c :: rest) = c :: rest := by
    unfold Tag.normalizeOctets Tag.normalizeWith
    split
    · rename_i hTag
      injection hTag with hFirst _
      exact absurd hFirst hc
    · rfl
  unfold normalize opensTag
  rcases tag with _ | ⟨c, _ | ⟨d, rest⟩⟩
  · rfl
  · by_cases hc : c = '<'
    · subst hc
      rfl
    · rw [hOther c [] hc]
      rfl
  · have hFirst :
        Octet.itemAt (c :: d :: rest) 0 = .ok c :=
      rfl
    rw [if_neg (by simp), hFirst, Octet.ok_bind]
    by_cases hc : c = '<'
    · subst hc
      simp only [pure_bind, inside_eq, Octet.ok_bind,
        trimSpaces_eq, List.getLast?_cons_cons]
      rfl
    · rw [hOther c _ hc]
      simp only [hc, pure_bind]
      rfl

end Indexed

end Markup

end WebTidy
