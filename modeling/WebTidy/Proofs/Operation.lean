import WebTidy.Operation.Octets
import WebTidy.Proofs.Markup.Indexed.Layout
import WebTidy.Proofs.Markup.Preservation
import WebTidy.Proofs.Stylesheet.Octets

/-
  Every operation succeeds on every document, and so it does
  on the octets of the document, with the same result.

  Key theorems include:
    * `WebTidy.Markup.exists_layout`
    * `WebTidy.Operation.exists_apply`
    * `WebTidy.Operation.applyOctets_of_apply`
    * `WebTidy.Operation.exists_applyOctets`
-/

------------------------------------------------------------
-- The Layout Succeeds
------------------------------------------------------------

namespace WebTidy

namespace Markup

variable
  {format : StyleFormatter}

/- A style element is laid out if its formatter succeeds. -/
theorem exists_styleElement
    (hFormat : ∀ sheet, ∃ out, format sheet = .ok out)
    (nest : Nest)
    (source : Text) :
    ∃ items, styleElement format nest source = .ok items := by
  unfold styleElement
  split
  · exact ⟨_, rfl⟩
  · rename_i parts hParts
    rcases hFormat parts.body with ⟨out, hOut⟩
    rw [hOut]
    exact ⟨_, rfl⟩

/- So a step succeeds on every token. -/
theorem exists_step_ok
    (hFormat : ∀ sheet, ∃ out, format sheet = .ok out)
    (nest : Nest)
    {token : Token}
    {rest : List Token}
    (hShaped : ∀ other ∈ token :: rest, other.IsShaped) :
    ∃ outcome, step format nest rest token = .ok outcome := by
  cases hStyle : isStyle token with
  | false =>
      rcases exists_step format nest hShaped hStyle with
        ⟨outcome, hStep, _⟩
      exact ⟨outcome, hStep⟩
  | true =>
      cases token with
      | tag | text | comment => cases hStyle
      | verbatim source =>
          have hSource : IsBracketed source :=
            hShaped (.verbatim source) (by simp)
          rcases List.head?_eq_some_iff.mp hSource.1 with
            ⟨inner, rfl⟩
          rcases exists_styleElement hFormat nest ('<' :: inner)
            with ⟨items, hItems⟩
          cases hRead : Tag.head? ('<' :: inner) with
          | none =>
              rw [Tag.head?_eq_none_iff] at hRead
              cases hRead
          | some head =>
              unfold step stepVerbatim
              simp only [hRead, hItems]
              split
              · exact ⟨_, rfl⟩
              · exact ⟨_, rfl⟩

/- So does the layout of all tokens. -/
theorem exists_layout
    (hFormat : ∀ sheet, ∃ out, format sheet = .ok out)
    (nest : Nest)
    (tokens : List Token)
    (hShaped : ∀ token ∈ tokens, token.IsShaped) :
    ∃ items, layout format nest tokens = .ok items := by
  -- A step may take several tokens at once.
  induction hLength : tokens.length
    using Nat.strong_induction_on
    generalizing nest tokens with
  | _ length ih =>
      cases tokens with
      | nil =>
          rw [layout]
          exact ⟨[], rfl⟩
      | cons token rest =>
          rcases exists_step_ok hFormat nest hShaped with
            ⟨outcome, hStep⟩
          have hLess :
              (rest.drop outcome.taken).length < length := by
            rw [← hLength, List.length_drop,
              List.length_cons]
            omega
          have hLater :
              ∀ other ∈ rest.drop outcome.taken,
                other.IsShaped := by
            intro other hOther
            exact hShaped other (List.mem_cons_of_mem _
              (List.mem_of_mem_drop hOther))
          rcases ih _ hLess outcome.nest _ hLater rfl with
            ⟨items, hItems⟩
          rw [layout, hStep]
          simp only [hItems]
          exact ⟨_, rfl⟩

end Markup

end WebTidy

------------------------------------------------------------
-- Operations Succeed
------------------------------------------------------------

namespace WebTidy

namespace Operation

/- Every operation succeeds on every document. -/
theorem exists_apply
    (op : Operation)
    (document : Text) :
    ∃ out, op.apply document = .ok out := by
  cases op with
  | cssPrettify | cssMinify | htmlMinify => exact ⟨_, rfl⟩
  | htmlPrettify =>
      have hFormat (sheet : Text) :
          ∃ out, formatStyle sheet = .ok out :=
        ⟨_, rfl⟩
      rcases Markup.exists_layout hFormat {}
          (Markup.Token.scan (document.trim isSpace))
          (fun token hToken =>
            Markup.Token.isShaped_of_mem_scan hToken) with
        ⟨items, hItems⟩
      refine ⟨Markup.pageText items, ?_⟩
      unfold apply Markup.prettify Markup.render
      simp only [hItems]
      rfl

/- What it makes of a document it makes of the octets. -/
theorem applyOctets_of_apply
    {op : Operation}
    {document out : Text}
    (h : op.apply document = .ok out) :
    op.applyOctets document = .ok out := by
  cases op with
  | cssMinify | htmlMinify =>
      cases h
      rfl
  | cssPrettify =>
      cases h
      rw [applyOctets, Stylesheet.prettifyOctets_eq]
      rfl
  | htmlPrettify =>
      have hFormat :
          Stylesheet.prettifyOctets =
            Markup.Indexed.StyleFormatter.ofFormatter
              formatStyle := by
        funext sheet
        exact Stylesheet.prettifyOctets_eq sheet
      rw [applyOctets, hFormat, Markup.Indexed.prettify_eq]
      rw [apply] at h
      cases hPage : Markup.prettify formatStyle document with
      | error fault =>
          rw [hPage] at h
          cases h
      | ok page =>
          rw [hPage] at h
          cases h
          rfl

/-
  So every operation succeeds octet by octet.  No index and
  no part is out of range, no cut goes through a character,
  no empty tag is read, and what is written is a text.
-/
theorem exists_applyOctets
    (op : Operation)
    (document : Text) :
    ∃ out,
      op.apply document = .ok out ∧
        op.applyOctets document = .ok out := by
  rcases exists_apply op document with ⟨out, hOut⟩
  exact ⟨out, hOut, applyOctets_of_apply hOut⟩

end Operation

end WebTidy
