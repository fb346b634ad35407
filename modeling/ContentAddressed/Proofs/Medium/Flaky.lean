import ContentAddressed.Proofs.Medium.Keeping

/-!
# Media that fail in any pattern

Whatever calls of a medium fail, it still has finitely many blocks and keeps what it accepts.
-/

namespace ContentAddressed

/-- A medium behind calls that may fail: each call takes the next verdict, an error or none. -/
structure Flaky (μ : Type) where
  medium : μ
  verdicts : List (Option Error)

namespace Flaky

variable {μ : Type}

/-- A call of the medium, if the next verdict lets it through. -/
def call {α : Type} (f : Flaky μ) (run : μ → Outcome μ α) : Outcome (Flaky μ) α :=
  match f.verdicts with
  | [] => (run f.medium).map id fun m => ⟨m, []⟩
  | none :: rest => (run f.medium).map id fun m => ⟨m, rest⟩
  | some e :: rest => (.error e, ⟨f.medium, rest⟩)

instance [Medium μ] : Medium (Flaky μ) where
  put f name bs := f.call fun m => Medium.put m name bs
  get f name := f.call fun m => Medium.get m name
  list f := Medium.list f.medium
  kind f := Medium.kind f.medium

theorem call_cases {α : Type} {f f' : Flaky μ} {run : μ → Outcome μ α} {out : Except Error α}
    (h : f.call run = (out, f')) :
    f'.verdicts ⊆ f.verdicts ∧ ((∃ e, some e ∈ f.verdicts ∧ out = .error e ∧ f'.medium = f.medium) ∨
      run f.medium = (out, f'.medium)) := by
  obtain ⟨m, verdicts⟩ := f
  match verdicts with
  | [] =>
    cases h
    exact ⟨List.Subset.refl _, Or.inr rfl⟩
  | none :: rest =>
    cases h
    exact ⟨List.subset_cons_self _ _, Or.inr rfl⟩
  | some e :: rest =>
    cases h
    exact ⟨List.subset_cons_self _ _, Or.inl ⟨e, List.mem_cons_self, rfl, rfl⟩⟩

instance [Medium μ] [FiniteMedium μ] : FiniteMedium (Flaky μ) where
  left f := FiniteMedium.left f.medium
  left_cons_le f := FiniteMedium.left_cons_le f.medium
  left_get_le f name asked := by
    have hcall : f.call (fun m => Medium.get m name) = (_, (Medium.get f name).2) := rfl
    obtain ⟨-, ⟨e, -, -, hm⟩ | hget⟩ := call_cases hcall
    · exact Nat.le_of_eq (congrArg (FiniteMedium.left · asked) hm)
    · have hle := FiniteMedium.left_get_le f.medium name asked
      rwa [hget] at hle
  left_answer_lt f name asked v f' hnew h := by
    obtain ⟨-, ⟨e, -, herror, -⟩ | hget⟩ := call_cases h
    · simp at herror
    · exact FiniteMedium.left_answer_lt f.medium name asked v f'.medium hnew hget

instance [Medium μ] [KeepingMedium μ] : KeepingMedium (Flaky μ) where
  held f := KeepingMedium.held f.medium
  Sound f := KeepingMedium.Sound f.medium ∧ ∀ name, some (.noSuchBlock name) ∉ f.verdicts
  put_effect {f f' name bs out} hf hbs h := by
    obtain ⟨hrest, ⟨e, he, rfl, hm⟩ | hput⟩ := call_cases h
    · rw [hm]
      exact ⟨⟨hf.1, fun name hmem => hf.2 name (hrest hmem)⟩, PutEffect.of_error _ _ _ _⟩
    · obtain ⟨hsound, heffect⟩ := KeepingMedium.put_effect hf.1 hbs hput
      exact ⟨⟨hsound, fun name hmem => hf.2 name (hrest hmem)⟩, heffect⟩
  get_effect {f f' name out} hf h := by
    obtain ⟨hrest, ⟨e, he, rfl, hm⟩ | hget⟩ := call_cases h
    · rw [hm]
      refine ⟨⟨hf.1, fun name hmem => hf.2 name (hrest hmem)⟩, GetEffect.of_error ?_⟩
      rintro missing rfl
      exact absurd he (hf.2 missing)
    · obtain ⟨hsound, heffect⟩ := KeepingMedium.get_effect hf.1 hget
      exact ⟨⟨hsound, fun name hmem => hf.2 name (hrest hmem)⟩, heffect⟩

end Flaky

end ContentAddressed
