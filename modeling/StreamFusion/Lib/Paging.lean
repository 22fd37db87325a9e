import StreamFusion.Lib.Outcome

/-!
# Visiting a sequence in pages

A scan hands its entries to a visitor in pages.  Where the cuts fall depends on row and byte limits;
`Cut` describes the pages of one scan: no page is empty and together they are the sequence.
-/

namespace Paging

variable {α : Type}

/-- `pages` is a way to cut `entries` into non-empty pages that satisfy `bounded`. -/
structure Cut (bounded : List α → Prop) (pages : List (List α)) (entries : List α) : Prop where
  nonempty : ∀ page ∈ pages, page ≠ []
  bounded : ∀ page ∈ pages, bounded page
  flatten : pages.flatten = entries

theorem cut_nil (bounded : List α → Prop) : Cut bounded [] ([] : List α) :=
  ⟨by simp, by simp, rfl⟩

theorem Cut.cons {bounded : List α → Prop} {pages : List (List α)} {page rest : List α}
    (h : Cut bounded pages rest) (hne : page ≠ []) (hb : bounded page) :
    Cut bounded (page :: pages) (page ++ rest) :=
  ⟨List.forall_mem_cons.mpr ⟨hne, h.nonempty⟩, List.forall_mem_cons.mpr ⟨hb, h.bounded⟩,
    by simp [h.flatten]⟩

end Paging
