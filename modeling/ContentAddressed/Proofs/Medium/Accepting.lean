import ContentAddressed.Proofs.Medium.Flaky

/-!
# Writes that a medium accepts

What a medium becomes through writes that it accepts one after the other, and which views of it stay
the same through reads and writes, or through writes that it refuses.
-/

namespace ContentAddressed

variable {μ γ : Type} [Medium μ]

/-- A medium before and after writes that it accepted, in this order and with none in between. -/
inductive Accepts : μ → List (String × Bytes) → μ → Prop
  | nil (m : μ) : Accepts m [] m
  | cons {m m₁ m' : μ} {name : String} {bs : Bytes} {writes : List (String × Bytes)} :
    Medium.put m name bs = (.ok (), m₁) → Accepts m₁ writes m' →
      Accepts m ((name, bs) :: writes) m'

/-- A view of a medium that reading does not change. -/
def KeptByReading (view : μ → γ) : Prop :=
  ∀ m name, view (Medium.get m name : Outcome μ StoredBytes).2 = view m

def KeptByWriting (view : μ → γ) : Prop :=
  ∀ m name bs, view (Medium.put m name bs : Outcome μ Unit).2 = view m

/-- A view of a medium that a refused write does not change. -/
def KeptByRefusal (view : μ → γ) : Prop :=
  ∀ m name bs e m', Medium.put m name bs = (.error e, m') → view m' = view m

namespace Flaky

variable {view : μ → γ}

theorem keptByReading (h : KeptByReading view) :
    KeptByReading fun f : Flaky μ => view f.medium := by
  intro f name
  have hcall : f.call (fun m => Medium.get m name) = (_, (Medium.get f name).2) := rfl
  obtain ⟨-, ⟨e, -, -, hm⟩ | hget⟩ := call_cases hcall
  · exact congrArg view hm
  · have hkept := h f.medium name
    rwa [hget] at hkept

theorem keptByRefusal (h : KeptByRefusal view) :
    KeptByRefusal fun f : Flaky μ => view f.medium := by
  intro f name bs e f' hput
  obtain ⟨-, ⟨e', -, -, hm⟩ | hput'⟩ := call_cases hput
  · exact congrArg view hm
  · exact h f.medium name bs e f'.medium hput'

end Flaky

namespace Backing

/-- What is on this side of a medium: all of it but the far end of a connection. -/
def nearSide : Backing → Backing
  | remote r => remote { r with peer := .unreachable }
  | b => b

theorem keptByReading_nearSide : KeptByReading nearSide := by
  intro b name
  cases b with
  | memory m => exact congrArg memory (congrArg Prod.snd (m.get_eq name))
  | disk d => rfl
  | remote r => rfl
  | faulty m => exact congrArg faulty (congrArg Prod.snd (m.get_eq name))

theorem keptByRefusal_nearSide : KeptByRefusal nearSide := by
  intro b name bs e b' h
  cases b with
  | memory m => cases h
  | disk d =>
    obtain ⟨d', hput, rfl⟩ := exists_of_wrapped disk (Medium.put d name bs) h
    rcases d.put_cases name bs with ⟨e', hd⟩ | ⟨-, ⟨-, hd⟩ | hd⟩
    · cases hd.symm.trans hput
      rfl
    · cases hd.symm.trans hput
    · cases hd.symm.trans hput
  | remote r =>
    obtain ⟨r', hput, rfl⟩ := exists_of_wrapped remote (Medium.put r name bs) h
    obtain ⟨-, rfl⟩ := Prod.mk.inj hput
    rfl
  | faulty m =>
    obtain ⟨m', hput, rfl⟩ := exists_of_wrapped faulty (Medium.put m name bs) h
    change m.put name bs = _ at hput
    rw [Faulty.put] at hput
    split at hput
    · cases hput
      rfl
    · cases hput

end Backing

end ContentAddressed
