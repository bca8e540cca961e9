import Mathlib.Tactic.Common

/-! # Lists that mirror each other

Two lists mirror each other if each entry of one has its like in the other. Neither the order of the
entries matters then, nor how often they occur.

* `Mirrors.forall_iff`, `Mirrors.exists_iff`: what holds of all, or of some, entries of both lists.
* `Mirrors.append`, `Mirrors.filter`, `Mirrors.map`: operations on both lists.
* `Mirrors.of_swap`: lists in another order. -/

namespace FactGraph

variable {α β γ δ : Type}

/-- Each entry of one list has its like in the other, in whatever order and however often. -/
def Mirrors (R : α → β → Prop) (as : List α) (bs : List β) : Prop :=
  (∀ a ∈ as, ∃ b ∈ bs, R a b) ∧ ∀ b ∈ bs, ∃ a ∈ as, R a b

namespace Mirrors

variable {R : α → β → Prop} {as as' : List α} {bs bs' : List β}

theorem refl {R : α → α → Prop} (h : ∀ a ∈ as, R a a) : Mirrors R as as :=
  ⟨fun a ha => ⟨a, ha, h a ha⟩, fun a ha => ⟨a, ha, h a ha⟩⟩

theorem of_mem_iff {R : α → α → Prop} {bs : List α} (hr : ∀ a, R a a)
    (h : ∀ a, a ∈ as ↔ a ∈ bs) : Mirrors R as bs :=
  ⟨fun a ha => ⟨a, (h a).mp ha, hr a⟩, fun a ha => ⟨a, (h a).mpr ha, hr a⟩⟩

theorem of_swap {R : α → α → Prop} (hr : ∀ a, R a a) (as bs cs : List α) :
    Mirrors R (as ++ (bs ++ cs)) (bs ++ (as ++ cs)) :=
  of_mem_iff hr fun a => by simp only [List.mem_append, or_left_comm]

theorem singleton {a : α} {b : β} (h : R a b) : Mirrors R [a] [b] :=
  ⟨List.forall_mem_singleton.mpr ⟨b, List.mem_singleton_self b, h⟩,
    List.forall_mem_singleton.mpr ⟨a, List.mem_singleton_self a, h⟩⟩

theorem attach_iff : Mirrors (fun a b => R a.val b) as.attach bs ↔ Mirrors R as bs := by
  simp [Mirrors]

/-! ### Entries -/

theorem forall_iff {P : α → Prop} {Q : β → Prop} (h : Mirrors R as bs)
    (hp : ∀ a ∈ as, ∀ b, R a b → (P a ↔ Q b)) : (∀ a ∈ as, P a) ↔ ∀ b ∈ bs, Q b := by
  constructor
  · intro hall b hb
    obtain ⟨a, ha, hr⟩ := h.2 b hb
    exact (hp a ha b hr).mp (hall a ha)
  · intro hall a ha
    obtain ⟨b, hb, hr⟩ := h.1 a ha
    exact (hp a ha b hr).mpr (hall b hb)

theorem exists_iff {P : α → Prop} {Q : β → Prop} (h : Mirrors R as bs)
    (hp : ∀ a ∈ as, ∀ b, R a b → (P a ↔ Q b)) : (∃ a ∈ as, P a) ↔ ∃ b ∈ bs, Q b := by
  constructor
  · rintro ⟨a, ha, hpa⟩
    obtain ⟨b, hb, hr⟩ := h.1 a ha
    exact ⟨b, hb, (hp a ha b hr).mp hpa⟩
  · rintro ⟨b, hb, hqb⟩
    obtain ⟨a, ha, hr⟩ := h.2 b hb
    exact ⟨a, ha, (hp a ha b hr).mpr hqb⟩

theorem eq_nil_iff (h : Mirrors R as bs) : as = [] ↔ bs = [] := by
  simpa [List.eq_nil_iff_forall_not_mem] using
    h.forall_iff (P := fun _ => False) (Q := fun _ => False) fun _ _ _ _ => Iff.rfl

/-! ### Operations -/

theorem append (h : Mirrors R as bs) (h' : Mirrors R as' bs') :
    Mirrors R (as ++ as') (bs ++ bs') := by
  constructor
  · intro a ha
    rcases List.mem_append.mp ha with ha | ha
    · obtain ⟨b, hb, hr⟩ := h.1 a ha
      exact ⟨b, List.mem_append_left bs' hb, hr⟩
    · obtain ⟨b, hb, hr⟩ := h'.1 a ha
      exact ⟨b, List.mem_append_right bs hb, hr⟩
  · intro b hb
    rcases List.mem_append.mp hb with hb | hb
    · obtain ⟨a, ha, hr⟩ := h.2 b hb
      exact ⟨a, List.mem_append_left as' ha, hr⟩
    · obtain ⟨a, ha, hr⟩ := h'.2 b hb
      exact ⟨a, List.mem_append_right as ha, hr⟩

theorem filter {p : α → Bool} {q : β → Bool} (h : Mirrors R as bs)
    (hp : ∀ a b, R a b → p a = q b) : Mirrors R (as.filter p) (bs.filter q) := by
  constructor
  · intro a ha
    obtain ⟨ha, hpa⟩ := List.mem_filter.mp ha
    obtain ⟨b, hb, hr⟩ := h.1 a ha
    exact ⟨b, List.mem_filter.mpr ⟨hb, hp a b hr ▸ hpa⟩, hr⟩
  · intro b hb
    obtain ⟨hb, hqb⟩ := List.mem_filter.mp hb
    obtain ⟨a, ha, hr⟩ := h.2 b hb
    exact ⟨a, List.mem_filter.mpr ⟨ha, (hp a b hr).symm ▸ hqb⟩, hr⟩

theorem map {S : γ → δ → Prop} {f : α → γ} {g : β → δ} (h : Mirrors R as bs)
    (hf : ∀ a ∈ as, ∀ b, R a b → S (f a) (g b)) : Mirrors S (as.map f) (bs.map g) := by
  constructor
  · intro c hc
    obtain ⟨a, ha, rfl⟩ := List.mem_map.mp hc
    obtain ⟨b, hb, hr⟩ := h.1 a ha
    exact ⟨g b, List.mem_map_of_mem hb, hf a ha b hr⟩
  · intro d hd
    obtain ⟨b, hb, rfl⟩ := List.mem_map.mp hd
    obtain ⟨a, ha, hr⟩ := h.2 b hb
    exact ⟨f a, List.mem_map_of_mem ha, hf a ha b hr⟩

end Mirrors

end FactGraph
