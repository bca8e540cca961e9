import FactGraph.Specification.Token
import Mathlib.Tactic.Common

/-! # Words in a text

Every word that scanning finds is a word of the language, and a word of the language that no further
character continues is found as it stands. -/

namespace FactGraph.Token

theorem isWord_ofList {c : Char} {cs : List Char} :
    isWord (String.ofList (c :: cs)) = (isWordStart c && cs.all isWordChar) := by
  simp [isWord]

theorem exists_of_isWord {name : String} (h : isWord name = true) :
    ∃ c cs, name.toList = c :: cs ∧ isWordStart c = true ∧ cs.all isWordChar = true := by
  unfold isWord at h
  rcases hn : name.toList with _ | ⟨c, cs⟩
  · simp [hn] at h
  · simp only [hn, Bool.and_eq_true] at h
    exact ⟨c, cs, rfl, h⟩

theorem scan_append : ∀ (cs rest : List Char) (left : Nat),
    scan cs.length left (cs ++ rest) = scan 0 (left - cs.length) rest
  | [], _, _ => rfl
  | c :: cs, rest, left => by
    rw [List.length_cons, List.cons_append, scan, scan_append cs rest, Nat.sub_sub, Nat.add_comm 1]

theorem takeWhile_append_of_all {p : Char → Bool} {cs rest : List Char} (h : cs.all p = true)
    (hr : ∀ c ∈ rest.head?, p c = false) : (cs ++ rest).takeWhile p = cs := by
  rw [List.takeWhile_append_of_pos (by simpa using h)]
  cases rest with
  | nil => simp
  | cons c rest => simp [hr c (by simp)]

theorem dropWhile_append_of_all {p : Char → Bool} {cs rest : List Char} (h : cs.all p = true)
    (hr : ∀ c ∈ rest.head?, p c = false) : (cs ++ rest).dropWhile p = rest := by
  rw [List.dropWhile_append_of_pos (by simpa using h)]
  cases rest with
  | nil => rfl
  | cons c rest => rw [List.dropWhile_cons_of_neg (by simp [hr c rfl])]

theorem isBlank_of_isWordStart {c : Char} (h : isWordStart c = true) : isBlank c = false := by
  by_contra hb
  simp only [isBlank, Bool.not_eq_false, Bool.or_eq_true, beq_iff_eq] at hb
  rcases hb with ((rfl | rfl) | rfl) | rfl <;> exact absurd h (by decide)

/-- **A word is scanned as it stands**, if no character that continues it stands behind it. -/
theorem scan_word {name : String} (h : isWord name = true) {rest : List Char}
    (hr : ∀ c ∈ rest.head?, isWordChar c = false) (left : Nat) :
    scan 0 left (name.toList ++ rest) =
      ⟨word name, left⟩ :: scan 0 (left - name.toList.length) rest := by
  obtain ⟨c, cs, hn, hc, hcs⟩ := exists_of_isWord h
  rw [hn, List.cons_append, scan, if_neg (by simp [isBlank_of_isWordStart hc]), if_pos hc]
  simp only [takeWhile_append_of_all hcs hr]
  rw [scan_append, ← hn, String.ofList_toList, hn, List.length_cons, Nat.sub_sub,
    Nat.add_comm 1]

theorem scan_char {c : Char} (hb : isBlank c = false) (hw : isWordStart c = false)
    (hs : c ≠ '/' ∧ c ≠ '-' ∧ c ≠ '=') (left : Nat) (rest : List Char) :
    scan 0 left (c :: rest) = ⟨char c, left⟩ :: scan 0 (left - 1) rest := by
  rw [scan, if_neg (by simp [hb]), if_neg (by simp [hw]), if_neg (by simp [hs.1]),
    if_neg (by simp [hs.2.1]), if_neg (by simp [hs.2.2])]

/-- **Every word that is scanned is a word of the language.** -/
theorem isWord_of_mem_scan : ∀ (cs : List Char) (skip left : Nat), ∀ l ∈ scan skip left cs,
    ∀ name, l.token = word name → isWord name = true
  | [], skip, left => by simp [scan]
  | c :: cs, skip + 1, left => by
    rw [scan]
    exact isWord_of_mem_scan cs skip _
  | c :: cs, 0, left => by
    have ih := isWord_of_mem_scan cs
    rw [scan]
    split_ifs with hb hw hc ha hy
    · exact ih _ _
    · intro l hl name hn
      rcases List.mem_cons.mp hl with rfl | hl
      · cases hn
        rw [isWord_ofList, hw, Bool.true_and]
        exact List.all_takeWhile
      · exact ih _ _ l hl name hn
    · exact ih _ _
    all_goals
      intro l hl name hn
      rcases List.mem_cons.mp hl with rfl | hl
      · cases hn
      · exact ih _ _ l hl name hn

end FactGraph.Token
