import WebTidy.Text.Slice
import Mathlib.Data.List.Basic

/-
  What checked indexes and parts give where they lie inside.

  Key theorems include:
    * `WebTidy.Octet.itemAt_of_drop`
    * `WebTidy.Octet.holdsAt_eq`
    * `WebTidy.Octet.slice_eq`
    * `WebTidy.Octet.skipWhile_eq`
    * `WebTidy.Octet.beginsWith_eq`
-/

------------------------------------------------------------
-- Items And Parts
------------------------------------------------------------

namespace WebTidy

namespace Octet

/- What follows a look-up that succeeds. -/
@[simp] theorem ok_bind
    {ε α β : Type}
    (a : α)
    (f : α → Except ε β) :
    (Except.ok a >>= f) = f a := by
  rfl

variable
  {α : Type}
  {s rest : List α}
  {c : α}
  {i start stop : Nat}

/- The index of an item that is still to be read. -/
theorem lt_length_of_drop
    (h : s.drop i = c :: rest) :
    i < s.length := by
  by_contra hNot
  rw [List.drop_of_length_le (Nat.le_of_not_lt hNot)] at h
  cases h

/- What follows that item. -/
theorem drop_succ_of_drop
    (h : s.drop i = c :: rest) :
    s.drop (i + 1) = rest := by
  rw [← List.drop_drop, h]
  rfl

/- The item that is read next. -/
theorem getElem?_of_drop
    (h : s.drop i = c :: rest) :
    s[i]? = some c := by
  rw [← List.head?_drop, h]
  rfl

/- The item behind it. -/
theorem getElem?_succ_of_drop
    (h : s.drop i = c :: rest) :
    s[i + 1]? = rest.head? := by
  rw [← List.head?_drop, drop_succ_of_drop h]

/- An index of an item can be read. -/
theorem itemAt_of_getElem?
    (h : s[i]? = some c) :
    itemAt s i = .ok c := by
  rw [itemAt, h]

/- So can the index of the next item. -/
theorem itemAt_of_drop
    (h : s.drop i = c :: rest) :
    itemAt s i = .ok c := by
  exact itemAt_of_getElem? (getElem?_of_drop h)

/- Behind the end there is no item in a class. -/
theorem holdsAt_eq
    (p : α → Bool)
    (s : List α)
    (i : Nat) :
    holdsAt p s i = .ok (s[i]?.any p) := by
  unfold holdsAt
  split
  · rename_i hInside
    rw [itemAt_of_getElem? (List.getElem?_eq_getElem hInside),
      List.getElem?_eq_getElem hInside]
    rfl
  · rename_i hOutside
    rw [List.getElem?_eq_none (Nat.le_of_not_lt hOutside)]
    rfl

/- A part in order and inside can be cut off. -/
theorem slice_eq
    (hOrder : start ≤ stop)
    (hInside : stop ≤ s.length) :
    slice s start stop = .ok ((s.take stop).drop start) := by
  rw [slice, if_pos ⟨hOrder, hInside⟩]

/- So can the part from an index on, -/
theorem sliceFrom_eq
    (hInside : start ≤ s.length) :
    sliceFrom s start = .ok (s.drop start) := by
  rw [sliceFrom, slice_eq hInside (Nat.le_refl _),
    List.take_length]

/- and the part up to one. -/
theorem sliceTo_eq
    (hInside : stop ≤ s.length) :
    sliceTo s stop = .ok (s.take stop) := by
  rw [sliceTo, slice_eq (Nat.zero_le _) hInside,
    List.drop_zero]

/- A part that is next can be cut off. -/
theorem slice_of_drop
    {part : List α}
    (hInside : i ≤ s.length)
    (hDrop : s.drop i = part ++ rest) :
    slice s i (i + part.length) = .ok part := by
  have hLength := congrArg List.length hDrop
  rw [List.length_drop, List.length_append] at hLength
  rw [slice_eq (Nat.le_add_right _ _) (by omega),
    List.drop_take, Nat.add_sub_cancel_left, hDrop,
    List.take_left]

/- What is left of a list behind a class. -/
theorem drop_length_takeWhile
    (p : α → Bool)
    (s : List α) :
    s.drop (s.takeWhile p).length = s.dropWhile p := by
  calc
    s.drop (s.takeWhile p).length
        = (s.takeWhile p ++ s.dropWhile p).drop
            (s.takeWhile p).length := by
          rw [List.takeWhile_append_dropWhile]
    _ = s.dropWhile p := List.drop_left

/- A loop over a class of items stops behind them. -/
theorem skipWhile_eq
    (p : α → Bool)
    (s : List α)
    (i : Nat) :
    skipWhile p s i =
      .ok ⟨i + ((s.drop i).takeWhile p).length,
        Nat.le_add_right _ _⟩ := by
  -- The loop goes over what is left behind the index.
  induction hRest : s.drop i generalizing i with
  | nil =>
      have hEnd : ¬ i < s.length := by
        simpa using hRest
      rw [skipWhile, if_neg hEnd]
      rfl
  | cons c rest ih =>
      rw [skipWhile, if_pos (lt_length_of_drop hRest),
        itemAt_of_drop hRest]
      cases hClass : p c with
      | false =>
          simp only [List.takeWhile_cons, hClass, ok_bind]
          rfl
      | true =>
          have hNext := ih (i + 1) (drop_succ_of_drop hRest)
          simp only [List.takeWhile_cons, hClass, ok_bind,
            if_true, hNext, List.length_cons]
          congr 2
          omega

/- The part that it has gone over. -/
theorem slice_takeWhile
    (p : α → Bool)
    (hInside : i ≤ s.length) :
    slice s i (i + ((s.drop i).takeWhile p).length) =
      .ok ((s.drop i).takeWhile p) := by
  exact slice_of_drop hInside
    List.takeWhile_append_dropWhile.symm

end Octet

end WebTidy

------------------------------------------------------------
-- Texts
------------------------------------------------------------

namespace WebTidy

namespace Octet

/- Between boundaries a text can be cut. -/
theorem cutText_eq
    {s : Text}
    {start stop : Nat}
    (hOrder : start ≤ stop)
    (hStart : isBoundary s start = true)
    (hStop : isBoundary s stop = true) :
    cutText s start stop = .ok ((s.take stop).drop start) := by
  have hInside : stop ≤ s.length := by
    simp only [isBoundary, decide_eq_true_eq] at hStop
    exact hStop.1
  rw [cutText, if_pos ⟨hStart, hStop⟩,
    slice_eq hOrder hInside]

/- A comparison with the beginning of a text never fails. -/
theorem beginsWith_eq
    (word s : Text) :
    beginsWith word s = .ok (Text.beginsWith word s) := by
  unfold beginsWith Text.beginsWith
  split
  · rename_i hLength
    rw [sliceTo_eq hLength]
    rfl
  · rename_i hLength
    have hShort :
        Text.sameLetters (s.take word.length) word = false := by
      rw [Bool.eq_false_iff]
      intro hSame
      have hSize := Text.length_eq_of_sameLetters hSame
      rw [List.length_take] at hSize
      omega
    rw [hShort]
    rfl

end Octet

end WebTidy
