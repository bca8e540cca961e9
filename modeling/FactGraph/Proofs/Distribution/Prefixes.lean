import FactGraph.Proofs.Distribution.StartObligations
import FactGraph.Proofs.Walk.Prolonged

/-! # Rules that go further

A rule for everyone permits the specification from which it was registered, and it permits that
specification also if the rule goes on with further matches, provided that each of them goes through
a role. A further match without roles would put its obligations on a fact that the specification
reaches, and the rule would demand them there.

* `DistributionRule.everyone_continued_permits`: a rule that goes further permits the specification
  in front. -/

namespace FactGraph

namespace DistributionRule

variable {spec : Specification} {more : List Match}

/-- **A rule that goes further permits every specification in front**: the rule for everyone that is
registered for an accepted specification with further matches permits the specification without
them, to every user from all start facts. -/
theorem everyone_continued_permits {walk longer : Walk} (ha : spec.Accepted)
    (ha' : (spec.continued more).Accepted) (ht : ∀ m ∈ more, m.Travels)
    (hw : spec.walk = .ok walk) (hl : (spec.continued more).walk = .ok longer) :
    ∃ rule, everyone (spec.continued more) = .ok rule ∧
      ∀ (verifier : Option (UserVerifier Id)) (start : List FactReference)
        (user : Option FactReference),
        (rule.alone verifier).verdict spec start user = .ok .permit := by
  have hrule : everyone (spec.continued more) = .ok ⟨spec.continued more, longer, none⟩ :=
    everyone_eq_ok_iff.mpr ⟨longer, hl, rfl⟩
  refine ⟨_, hrule, fun verifier start user => ?_⟩
  have hcovered := (Specification.prolongs_walk ha.check ha'.check ht hw hl).coveredBy
  exact (verdict_alone_of_everyone hrule).mpr ⟨walk, hw, hcovered⟩

/-- The members of a project that have not left, and the owner of the root. -/
def membersAndOwner : List Match :=
  [⟨⟨"m", "Member"⟩, [.path ⟨[⟨"project", "Project"⟩], "p", []⟩,
      .existential false [Specification.referring "l" "Left" "member" "m" "Member"]]⟩,
    ⟨⟨"owner", "User"⟩, [.path ⟨[], "root", [⟨"owner", "User"⟩]⟩]⟩]

/-- The rule that goes on to members and the owner permits the projects that are not deleted. -/
theorem everyone_continued_permits_withoutDeletion :
    let spec := Specification.projectsWhere false [Specification.deletion]
    spec.Accepted ∧ (spec.continued membersAndOwner).Accepted ∧
      (∀ m ∈ membersAndOwner, m.Travels) ∧
      ∃ rule, everyone (spec.continued membersAndOwner) = .ok rule ∧
        ∀ user, (rule.alone none).verdict spec [⟨"Root", "r"⟩] user = .ok .permit := by
  intro spec
  have ha' : (spec.continued membersAndOwner).Accepted :=
    Specification.accepted_of_isPrintable rfl rfl
  have ht : ∀ m ∈ membersAndOwner, m.Travels := by
    simp [membersAndOwner, Specification.referring, Match.Travels, Match.paths]
  obtain ⟨rule, hrule, hpermits⟩ :=
    everyone_continued_permits Specification.accepted_withoutDeletion ha' ht rfl rfl
  exact ⟨Specification.accepted_withoutDeletion, ha', ht, rule, hrule,
    hpermits none [⟨"Root", "r"⟩]⟩

end DistributionRule

end FactGraph
