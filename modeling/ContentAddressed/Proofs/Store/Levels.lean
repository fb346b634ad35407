import ContentAddressed.Proofs.Medium.Accepting
import ContentAddressed.Store.Basic

/-!
# Levels of a chain

No operation adds or removes a level, and what reads and writes keep of the media stays as it is,
level by level. A flush drains the first level, and goes on only if that succeeds.
-/

namespace ContentAddressed.Store

variable {μ γ : Type} {view : μ → γ}

theorem length_levels (s : Store μ) : s.levels.length = s.depth + 1 := by
  induction s with
  | base m j => rfl
  | cached m j c ih => simp [levels, depth, ih]

theorem exists_level {s : Store μ} {k : Nat} (h : k ≤ s.depth) :
    ∃ level, s.levels[k]? = some level :=
  ⟨_, List.getElem?_eq_getElem (by rw [length_levels]; omega)⟩

def media (s : Store μ) : List μ := s.levels.map medium

@[simp] theorem media_base (m : μ) (j : List String) : (base m j).media = [m] := rfl

@[simp] theorem media_cached (m : μ) (j : List String) (c : Store μ) :
    (cached m j c).media = m :: c.media := rfl

theorem media_mapMedia (view : μ → γ) (s : Store μ) :
    (s.mapMedia view).media = s.media.map view := by
  induction s with
  | base m j => rfl
  | cached m j c ih => exact congrArg (view m :: ·) ih

theorem length_media (s : Store μ) : s.media.length = s.depth + 1 := by
  rw [media, List.length_map, length_levels]

theorem media_atLevel {α : Type} {f : Store μ → α × Store μ}
    (hf : ∀ s, (f s).2.media.map view = s.media.map view) {k : Nat} {s s' : Store μ} {out : α}
    (h : s.atLevel k f = some (out, s')) : s'.media.map view = s.media.map view := by
  induction k generalizing s s' with
  | zero =>
    have hs := hf s
    rwa [atLevel_zero_eq_some_iff.mp h] at hs
  | succ k ih =>
    obtain ⟨m, j, c, c', rfl, hc, rfl⟩ := atLevel_succ_eq_some_iff.mp h
    exact congrArg (view m :: ·) (ih hc)

variable [Medium μ]

theorem flush_of_drain_error {m m' : μ} {j j' : List String} {c c' : Store μ} {e : Error}
    (h : drain m j c = (.error e, m', j', c')) :
    (cached m j c).flush = (.error e, cached m' j' c') := by
  rw [flush]
  split <;> next heq => simpa using heq.symm.trans h

theorem flush_of_drain_ok {m m' : μ} {j j' : List String} {c c' : Store μ}
    (h : drain m j c = (.ok (), m', j', c')) :
    (cached m j c).flush = (c'.flush.1, cached m' j' c'.flush.2) := by
  rw [flush]
  split
  · next heq => simpa using heq.symm.trans h
  · next heq =>
    cases heq.symm.trans h
    rfl

/-! ## What is kept of the media -/

/-- Reading from a chain changes no journal, and no view of a medium that reading keeps. -/
theorem mapMedia_retrieve (hread : KeptByReading view) (s : Store μ) (name : String) :
    (s.retrieve name).2.mapMedia view = s.mapMedia view := by
  induction s with
  | base m j => exact congrArg (base · j) (hread m name)
  | cached m j c ih =>
    rw [retrieve]
    split <;> rename_i hc <;> rw [hc] at ih
    · exact congrArg (cached (view m) j) ih
    · exact (congrArg (cached · j _) (hread m name)).trans (congrArg (cached (view m) j) ih)
    · exact congrArg (cached (view m) j) ih

theorem media_storeBytes (hwrite : KeptByWriting view) (s : Store μ) (name : String) (bs : Bytes) :
    (s.storeBytes name bs).2.media.map view = s.media.map view := by
  induction s with
  | base m j => exact congrArg (fun v => [v]) (hwrite m name bs)
  | cached m j c ih =>
    rw [storeBytes]
    split <;> rename_i hc <;> rw [hc] at ih <;> exact congrArg (view m :: ·) ih

theorem media_retrieve (hread : KeptByReading view) (s : Store μ) (name : String) :
    (s.retrieve name).2.media.map view = s.media.map view := by
  rw [← media_mapMedia, mapMedia_retrieve hread, media_mapMedia]

section Flush

variable (hread : KeptByReading view) (hwrite : KeptByWriting view)

include hread hwrite

theorem media_drain (m : μ) (queue : List String) (c : Store μ) :
    view (drain m queue c).2.1 = view m ∧
      (drain m queue c).2.2.2.media.map view = c.media.map view := by
  induction queue generalizing m c with
  | nil => exact ⟨rfl, rfl⟩
  | cons name rest ih =>
    have hc := media_retrieve hread c name
    rw [drain]
    split <;> rename_i hr <;> rw [hr] at hc
    · exact ⟨rfl, hc⟩
    · exact ⟨rfl, hc⟩
    · next v c' =>
      have hm := hwrite m name v.bytes
      split <;> rename_i hput <;> rw [hput] at hm
      · exact ⟨hm, hc⟩
      · obtain ⟨hm', hc'⟩ := ih _ c'
        exact ⟨hm'.trans hm, hc'.trans hc⟩

theorem media_flush (s : Store μ) : s.flush.2.media.map view = s.media.map view := by
  fun_induction flush s with
  | case1 m => rfl
  | case2 m name rest => rfl
  | case3 m j c e m' j' c' hdrain =>
    have hkept := media_drain hread hwrite m j c
    rw [hdrain] at hkept
    exact List.cons_eq_cons.mpr hkept
  | case4 m j c m' j' c' hdrain out c'' hflush ih =>
    have hkept := media_drain hread hwrite m j c
    rw [hdrain] at hkept
    rw [hflush] at ih
    exact List.cons_eq_cons.mpr ⟨hkept.1, ih.trans hkept.2⟩

end Flush

theorem depth_flush (s : Store μ) : s.flush.2.depth = s.depth := by
  have hread : KeptByReading fun _ : μ => () := fun _ _ => rfl
  have hwrite : KeptByWriting fun _ : μ => () := fun _ _ _ => rfl
  simpa [length_media] using congrArg List.length (media_flush hread hwrite s)

end ContentAddressed.Store
