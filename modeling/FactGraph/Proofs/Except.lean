import Mathlib.Tactic.Common

/-! # Computations that succeed

A sequence of computations succeeds if each of them does.

* `Except.Succeeds.bind`: the condition on which a sequence succeeds, and what its result satisfies.
* `Except.mapM_succeeds`: the same of a computation for every element of a list.
* `Except.bind_eq_bimap`: a sequence is changed by changing its parts.
* `Except.map_bind_congr`: sequences whose parts agree up to a function agree up to a function.
* `Except.Agree.bind`: sequences whose parts agree up to a relation agree up to a relation.
* `Except.Ends.bind`: what is known of the results and errors of a sequence by those of its
  parts. -/

namespace Except

variable {ε α β : Type}

@[simp]
theorem bind_eq_ok_iff {x : Except ε α} {f : α → Except ε β} {b : β} :
    x >>= f = .ok b ↔ ∃ a, x = .ok a ∧ f a = .ok b := by
  rcases x with e | a <;> simp [bind, Except.bind]

theorem bind_eq_error_iff {x : Except ε α} {f : α → Except ε β} {e : ε} :
    x >>= f = .error e ↔ x = .error e ∨ ∃ a, x = .ok a ∧ f a = .error e := by
  rcases x with e' | a <;> simp [bind, Except.bind]

theorem bind_unit_eq_ok_iff {x : Except ε Unit} {f : Unit → Except ε β} {b : β} :
    x >>= f = .ok b ↔ x = .ok () ∧ f () = .ok b :=
  bind_eq_ok_iff.trans ⟨fun ⟨_, h⟩ => h, fun h => ⟨_, h⟩⟩

@[simp]
theorem pure_eq_ok_iff {a b : α} : (pure a : Except ε α) = .ok b ↔ a = b := by
  simp [pure, Except.pure]

theorem bind_congr_of_ok {x : Except ε α} {f g : α → Except ε β}
    (h : ∀ a, x = .ok a → f a = g a) : x >>= f = x >>= g := by
  rcases x with e | a
  · rfl
  · exact h a rfl

/-! ### Conditions of success -/

/-- A computation succeeds exactly if `P` holds, and its result satisfies `Q`. -/
structure Succeeds (x : Except ε α) (P : Prop) (Q : α → Prop) : Prop where
  iff : (∃ a, x = .ok a) ↔ P
  spec : ∀ a, x = .ok a → Q a

variable {x : Except ε α} {f : α → Except ε β} {P P' : Prop} {Q R : α → Prop} {Q' : β → Prop}

theorem Succeeds.congr (h : x.Succeeds P Q) (hp : P ↔ P') (hq : ∀ a, Q a → R a) :
    x.Succeeds P' R :=
  ⟨h.iff.trans hp, fun a ha => hq a (h.spec a ha)⟩

theorem Succeeds.of_ok {a : α} (h : x = .ok a) (hp : P) (hq : Q a) : x.Succeeds P Q := by
  subst h
  exact ⟨iff_of_true ⟨a, rfl⟩ hp, fun _ ha => ok.inj ha ▸ hq⟩

theorem Succeeds.of_error {e : ε} (h : x = .error e) (hp : ¬ P) : x.Succeeds P Q := by
  subst h
  exact ⟨iff_of_false (by rintro ⟨_, ⟨⟩⟩) hp, by rintro _ ⟨⟩⟩

theorem Succeeds.and_eq (h : x.Succeeds P Q) : x.Succeeds P fun a => x = .ok a ∧ Q a :=
  ⟨h.iff, fun a ha => ⟨ha, h.spec a ha⟩⟩

theorem Succeeds.bind (h : x.Succeeds P Q) (hf : ∀ a, Q a → (f a).Succeeds P' Q') :
    (x >>= f).Succeeds (P ∧ P') Q' := by
  refine ⟨⟨?_, ?_⟩, fun b hb => ?_⟩
  · rintro ⟨b, hb⟩
    obtain ⟨a, ha, hb⟩ := bind_eq_ok_iff.mp hb
    exact ⟨h.iff.mp ⟨a, ha⟩, (hf a (h.spec a ha)).iff.mp ⟨b, hb⟩⟩
  · rintro ⟨hp, hp'⟩
    obtain ⟨a, ha⟩ := h.iff.mpr hp
    obtain ⟨b, hb⟩ := (hf a (h.spec a ha)).iff.mpr hp'
    exact ⟨b, bind_eq_ok_iff.mpr ⟨a, ha, hb⟩⟩
  · obtain ⟨a, ha, hb⟩ := bind_eq_ok_iff.mp hb
    exact (hf a (h.spec a ha)).spec b hb

theorem mapM_succeeds (f : α → Except ε β) : ∀ as : List α,
    (as.mapM f).Succeeds (∀ a ∈ as, ∃ b, f a = .ok b)
      fun bs => List.Forall₂ (fun a b => f a = .ok b) as bs
  | [] => .of_ok rfl (fun _ hm => absurd hm List.not_mem_nil) .nil
  | a :: rest => by
    have hfirst : (f a).Succeeds (∃ b, f a = .ok b) fun b => f a = .ok b :=
      ⟨Iff.rfl, fun _ h => h⟩
    rw [List.mapM_cons, List.forall_mem_cons]
    refine (hfirst.bind fun b hb => (mapM_succeeds f rest).bind fun bs hbs => ?_).congr
      (and_congr_right fun _ => and_iff_left trivial) fun _ h => h
    exact .of_ok rfl trivial (.cons hb hbs)

/-! ### Computations that agree up to a function -/

variable {α' β' γ δ ζ : Type}

/-- Changes the error and the result of a computation. -/
def bimap (f : ε → ζ) (g : α → γ) : Except ε α → Except ζ γ
  | .error e => .error (f e)
  | .ok a => .ok (g a)

theorem bind_eq_bimap {f : ε → ζ} {g : α → γ} {h : β → δ} {x : Except ε α} {x' : Except ζ γ}
    {next : α → Except ε β} {next' : γ → Except ζ δ} (hx : x' = x.bimap f g)
    (hn : ∀ a, next' (g a) = (next a).bimap f h) : x' >>= next' = (x >>= next).bimap f h := by
  subst hx
  rcases x with e | a
  · rfl
  · exact hn a

theorem bimap_eq_bimap_iff {f : ε → ζ} {g : α → γ} {x y : Except ε α} :
    x.bimap f g = y.bimap f g ↔ (∃ a b, x = .ok a ∧ y = .ok b ∧ g a = g b) ∨
      ∃ e e', x = .error e ∧ y = .error e' ∧ f e = f e' := by
  rcases x with e | a <;> rcases y with e' | b <;> simp [bimap]

theorem map_eq_map_iff {f : α → γ} {g : β → γ} {x : Except ε α} {y : Except ε β} :
    x.map f = y.map g ↔ (∃ a b, x = .ok a ∧ y = .ok b ∧ f a = g b) ∨
      ∃ e, x = .error e ∧ y = .error e := by
  rcases x with e | a <;> rcases y with e' | b <;> simp [Except.map, eq_comm]

theorem map_bind (x : Except ε α) (next : α → Except ε β) (g : β → δ) :
    (x >>= next).map g = x >>= fun a => (next a).map g := by
  rcases x with e | a <;> rfl

/-- Two sequences give the same result, up to a function, if their first parts do so and the others
go on alike. -/
theorem map_bind_congr {f : α → γ} {f' : α' → γ} {g : β → δ} {g' : β' → δ} {x : Except ε α}
    {x' : Except ε α'} {next : α → Except ε β} {next' : α' → Except ε β'}
    (hx : x.map f = x'.map f')
    (hn : ∀ a a', f a = f' a' → (next a).map g = (next' a').map g') :
    (x >>= next).map g = (x' >>= next').map g' := by
  obtain ⟨a, a', rfl, rfl, ha⟩ | ⟨e, rfl, rfl⟩ := map_eq_map_iff.mp hx
  · exact hn a a' ha
  · rfl

/-- Computations for the elements of two lists give the same results, up to a function, if they do
so for every pair. -/
theorem map_mapM_congr {f : β → γ} {f' : β' → γ} {next : α → Except ε β}
    {next' : α' → Except ε β'} : ∀ {as : List α} {as' : List α'},
    List.Forall₂ (fun a a' => (next a).map f = (next' a').map f') as as' →
      (as.mapM next).map (List.map f) = (as'.mapM next').map (List.map f')
  | [], [], .nil => rfl
  | a :: rest, a' :: rest', .cons h hs => by
    rw [List.mapM_cons, List.mapM_cons]
    refine map_bind_congr h fun b b' hb => map_bind_congr (map_mapM_congr hs) fun bs bs' hbs => ?_
    show Except.ok (f b :: bs.map f) = Except.ok (f' b' :: bs'.map f')
    rw [hb, hbs]

/-! ### Computations that agree up to a relation -/

/-- Both computations fail, or both succeed and their results are related. -/
def Agree (R : α → γ → Prop) : Except ε α → Except ζ γ → Prop
  | .ok a, .ok c => R a c
  | .error _, .error _ => True
  | _, _ => False

variable {R : α → γ → Prop} {S : β → δ → Prop} {y : Except ζ γ}

theorem Agree.refl {R : α → α → Prop} (h : ∀ a, R a a) (x : Except ε α) : Agree R x x := by
  rcases x with e | a
  · trivial
  · exact h a

theorem Agree.bind {g : γ → Except ζ δ} (h : Agree R x y)
    (hf : ∀ a c, R a c → Agree S (f a) (g c)) : Agree S (x >>= f) (y >>= g) := by
  rcases x with e | a <;> rcases y with e' | c
  · trivial
  · exact h.elim
  · exact h.elim
  · exact hf a c h

theorem Agree.of_bind {α' : Type} {S : β → α' → Prop} {g : α → Except ε α'}
    (hf : ∀ a, x = .ok a → Agree S (f a) (g a)) : Agree S (x >>= f) (x >>= g) := by
  rcases x with e | a
  · trivial
  · exact hf a rfl

theorem Agree.of_swap {z : Except ε γ} {S : β → δ → Prop} {f : α → γ → β} {g : α → γ → δ}
    (h : ∀ a c, x = .ok a → z = .ok c → S (f a c) (g a c)) :
    Agree S (do let a ← x; let c ← z; return f a c) (do let c ← z; let a ← x; return g a c) := by
  rcases x with e | a <;> rcases z with e' | c
  · trivial
  · trivial
  · trivial
  · exact h a c rfl rfl

theorem Agree.succeeds_iff (h : Agree R x y) : (∃ a, x = .ok a) ↔ ∃ c, y = .ok c := by
  rcases x with e | a <;> rcases y with e' | c
  · simp
  · exact h.elim
  · exact h.elim
  · simp

theorem Agree.of_ok {a : α} {c : γ} (h : Agree R x y) (hx : x = .ok a) (hy : y = .ok c) :
    R a c := by
  subst hx hy
  exact h

/-! ### Results and errors -/

/-- A computation ends with a result that satisfies `Q`, or with an error that satisfies `E`. -/
structure Ends (x : Except ε α) (Q : α → Prop) (E : ε → Prop) : Prop where
  ok : ∀ a, x = .ok a → Q a
  error : ∀ e, x = .error e → E e

variable {E : ε → Prop}

theorem Ends.of_ok {a : α} (h : Q a) : (Except.ok a : Except ε α).Ends Q E :=
  ⟨fun _ ha => Except.ok.inj ha ▸ h, by rintro _ ⟨⟩⟩

theorem Ends.of_error {e : ε} (h : E e) : (Except.error e : Except ε α).Ends Q E :=
  ⟨by rintro _ ⟨⟩, fun _ he => Except.error.inj he ▸ h⟩

theorem Ends.bind (h : x.Ends Q E) (hf : ∀ a, Q a → (f a).Ends Q' E) : (x >>= f).Ends Q' E := by
  rcases x with e | a
  · exact .of_error (h.error e rfl)
  · exact hf a (h.ok a rfl)

/-- The computations for the elements of a list end with errors of their own only. -/
theorem ends_mapM : ∀ {as : List α}, (∀ a ∈ as, (f a).Ends (fun _ => True) E) →
    (as.mapM f).Ends (fun _ => True) E
  | [], _ => .of_ok trivial
  | a :: rest, h => by
    rw [List.mapM_cons]
    refine (h a List.mem_cons_self).bind fun b _ => ?_
    exact (ends_mapM fun a ha => h a (List.mem_cons_of_mem _ ha)).bind fun _ _ => .of_ok trivial

end Except
