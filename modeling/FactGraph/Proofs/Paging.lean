import Mathlib.Data.List.Lex
import Mathlib.Data.List.Sort
import Mathlib.Tactic.Common

/-! # Reading page by page

Rows are read in the order of their keys. A page holds the first rows whose keys are greater than a
mark, in an order that is open for rows of one key, and the key of its last row is the mark of the
next page. What is left over of the rows of that key is not read any more.

* `Reading.mem_of_injective`: every row is read if no two rows share their key.
* `reading_complete_iff`: for all sizes of pages, every row is read only then. -/

namespace FactGraph

variable {α κ : Type} [LinearOrder κ] {key : α → κ} {rows : List α} {limit : Nat} {mark : κ}

/-- The first rows behind a mark, in the order of their keys. -/
def IsPage (key : α → κ) (rows : List α) (limit : Nat) (mark : κ) (page : List α) : Prop :=
  ∃ ordered : List α, ordered.Perm (rows.filter fun row => mark < key row) ∧
    ordered.Pairwise (fun row row' => key row ≤ key row') ∧ page = ordered.take limit

/-- What is read page by page behind a mark, until a page is empty. -/
inductive Reading (key : α → κ) (rows : List α) (limit : Nat) : κ → List α → Prop where
  | done {mark : κ} : IsPage key rows limit mark [] → Reading key rows limit mark []
  | more {mark : κ} {page rest : List α} {last : α} : IsPage key rows limit mark page →
    page.getLast? = some last → Reading key rows limit (key last) rest →
      Reading key rows limit mark (page ++ rest)

/-! ### Pages -/

namespace IsPage

variable {page : List α} {row last : α}

theorem iff_of_test {behind : α → Bool} (h : ∀ row ∈ rows, behind row = true ↔ mark < key row) :
    IsPage key rows limit mark page ↔ ∃ ordered : List α, ordered.Perm (rows.filter behind) ∧
      ordered.Pairwise (fun row row' => key row ≤ key row') ∧ page = ordered.take limit := by
  have hfilter : rows.filter behind = rows.filter fun row => mark < key row := by
    refine List.filter_congr fun row hm => ?_
    exact Bool.eq_iff_iff.mpr ((h row hm).trans decide_eq_true_iff.symm)
  rw [IsPage, hfilter]

theorem mem (h : IsPage key rows limit mark page) (hm : row ∈ page) :
    row ∈ rows ∧ mark < key row := by
  obtain ⟨ordered, hperm, -, rfl⟩ := h
  simpa using hperm.mem_iff.mp (List.mem_of_mem_take hm)

/-- A row behind the mark is on the page, or it does not stand before the last row. -/
theorem mem_or_le (h : IsPage key rows limit mark page) (hl : page.getLast? = some last)
    (hr : row ∈ rows) (hm : mark < key row) : row ∈ page ∨ key last ≤ key row := by
  obtain ⟨ordered, hperm, hsorted, rfl⟩ := h
  have hrow : row ∈ ordered.take limit ++ ordered.drop limit := by
    rw [List.take_append_drop]
    exact hperm.mem_iff.mpr (by simpa using ⟨hr, hm⟩)
  rcases List.mem_append.mp hrow with hrow | hrow
  · exact Or.inl hrow
  · rw [← List.take_append_drop limit ordered] at hsorted
    exact Or.inr ((List.pairwise_append.mp hsorted).2.2 last (List.mem_of_getLast? hl) row hrow)

theorem not_lt_of_nil (hn : 1 ≤ limit) (h : IsPage key rows limit mark []) (hr : row ∈ rows) :
    ¬ mark < key row := by
  obtain ⟨ordered, hperm, -, hnil⟩ := h
  intro hm
  have hrow : row ∈ ordered := hperm.mem_iff.mpr (by simpa using ⟨hr, hm⟩)
  rcases List.take_eq_nil_iff.mp hnil.symm with h0 | h0
  · omega
  · rw [h0] at hrow
    exact List.not_mem_nil hrow

theorem exists_page (key : α → κ) (rows : List α) (limit : Nat) (mark : κ) :
    ∃ page, IsPage key rows limit mark page := by
  refine ⟨_, _, List.mergeSort_perm _ fun row row' => decide (key row ≤ key row'), ?_, rfl⟩
  refine (List.pairwise_mergeSort ?_ ?_ _).imp of_decide_eq_true
  · intro a b c hab hbc
    exact decide_eq_true ((of_decide_eq_true hab).trans (of_decide_eq_true hbc))
  · intro a b
    simpa using le_total (key a) (key b)

end IsPage

/-! ### Readings -/

namespace Reading

variable {read : List α} {row row' : α}

theorem mem (h : Reading key rows limit mark read) (hm : row ∈ read) :
    row ∈ rows ∧ mark < key row := by
  induction h with
  | done => cases hm
  | @more mark page rest last hpage hlast hrest ih =>
    rcases List.mem_append.mp hm with hm | hm
    · exact hpage.mem hm
    · have hbefore := (hpage.mem (List.mem_of_getLast? hlast)).2
      exact ⟨(ih hm).1, hbefore.trans (ih hm).2⟩

/-- **Every row behind the mark is read**, if no two rows share their key. -/
theorem mem_of_injective (hn : 1 ≤ limit)
    (hk : ∀ row ∈ rows, ∀ row' ∈ rows, key row = key row' → row = row')
    (h : Reading key rows limit mark read) (hr : row ∈ rows) (hm : mark < key row) :
    row ∈ read := by
  induction h with
  | done hpage => exact absurd hm (hpage.not_lt_of_nil hn hr)
  | @more mark page rest last hpage hlast hrest ih =>
    have hmem := List.mem_of_getLast? hlast
    rcases hpage.mem_or_le hlast hr hm with hrow | hle
    · exact List.mem_append_left _ hrow
    · rcases hle.lt_or_eq with hlt | heq
      · exact List.mem_append_right _ (ih hlt)
      · -- the row shares its key with the last row of the page
        rw [← hk last (hpage.mem hmem).1 row hr heq]
        exact List.mem_append_left _ hmem

theorem pairwise_lt (h : Reading key rows 1 mark read) :
    read.Pairwise fun row row' => key row < key row' := by
  induction h with
  | done => exact List.Pairwise.nil
  | @more mark page rest last hpage hlast hrest ih =>
    have hsingle : page = [last] := by
      obtain ⟨ordered, -, -, rfl⟩ := hpage
      rcases ordered with _ | ⟨first, others⟩
      · cases hlast
      · rw [List.take_one, List.head?_cons] at hlast ⊢
        exact congrArg (fun row => [row]) (Option.some_inj.mp hlast)
    rw [hsingle, List.singleton_append]
    exact List.pairwise_cons.mpr ⟨fun row hm => (hrest.mem hm).2, ih⟩

theorem eq_of_key_eq (h : Reading key rows 1 mark read) (hr : row ∈ read) (hr' : row' ∈ read)
    (he : key row = key row') : row = row' := by
  have hnodup : (read.map key).Nodup :=
    List.pairwise_map.mpr (h.pairwise_lt.imp fun hlt => hlt.ne)
  exact List.inj_on_of_nodup_map hnodup hr hr' he

/-- **A reading comes to an end**: every page but the last leaves fewer rows behind it. -/
theorem exists_reading (hn : 1 ≤ limit) (mark : κ) : ∃ read, Reading key rows limit mark read := by
  obtain ⟨page, hpage⟩ := IsPage.exists_page key rows limit mark
  rcases hl : page.getLast? with _ | last
  · rw [List.getLast?_eq_none_iff.mp hl] at hpage
    exact ⟨[], .done hpage⟩
  · obtain ⟨hlast, hlt⟩ := hpage.mem (List.mem_of_getLast? hl)
    have hfewer : (rows.filter fun row => key last < key row).length <
        (rows.filter fun row => mark < key row).length := by
      have hfilter : (rows.filter fun row => key last < key row) =
          (rows.filter fun row => mark < key row).filter fun row => key last < key row := by
        rw [List.filter_filter]
        refine List.filter_congr fun row _ => ?_
        by_cases h : key last < key row
        · simp [h, hlt.trans h]
        · simp [h]
      rw [hfilter, List.length_filter_lt_length_iff_exists]
      exact ⟨last, by simpa using ⟨hlast, hlt⟩, by simp⟩
    obtain ⟨rest, hrest⟩ := exists_reading hn (key last)
    exact ⟨page ++ rest, .more hpage hl hrest⟩
termination_by (rows.filter fun row => mark < key row).length

end Reading

/-- **Reading page by page is complete for all sizes of pages exactly if no two rows share their
key.** -/
theorem reading_complete_iff (hs : ∀ row ∈ rows, mark < key row) :
    (∀ limit, 1 ≤ limit → (∃ read, Reading key rows limit mark read) ∧
      ∀ read, Reading key rows limit mark read → ∀ row ∈ rows, row ∈ read) ↔
    ∀ row ∈ rows, ∀ row' ∈ rows, key row = key row' → row = row' := by
  constructor
  · intro hall row hr row' hr' he
    obtain ⟨⟨read, hread⟩, hcomplete⟩ := hall 1 le_rfl
    exact hread.eq_of_key_eq (hcomplete read hread row hr) (hcomplete read hread row' hr') he
  · intro hk limit hn
    exact ⟨Reading.exists_reading hn mark,
      fun read hread row hr => hread.mem_of_injective hn hk hr (hs row hr)⟩

end FactGraph
