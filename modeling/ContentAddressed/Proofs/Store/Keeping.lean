import ContentAddressed.Proofs.Medium.Keeping
import ContentAddressed.Store.Basic

/-!
# Chains that keep what they accept

At each level of a chain the names accepted are those that the medium holds or the journal still
lists, and the bytes held are the ones that were written. Reading, writing and flushing preserve
this, whether they succeed or fail.
-/

namespace ContentAddressed.Store

open KeepingMedium (held Sound)

variable {μ : Type} [Medium μ] [KeepingMedium μ] {content : String → Bytes}

/-- One level: what was accepted is held or waits for a flush, and what is held is right. -/
structure LevelKeeps (content : String → Bytes) (accepted : String → Prop) (m : μ)
    (journal : List String) : Prop where
  sound : Sound m
  nonempty : ∀ name, accepted name → content name ≠ []
  accepted_iff : ∀ name, accepted name ↔ (held m name).isSome ∨ name ∈ journal
  content_eq : ∀ name bs, held m name = some bs → bs = content name

/-- Every level of a chain, where `accepted k` tells the names accepted `k` levels further in. A
name is accepted at every level behind one that accepts it, and nothing waits at the innermost
one. -/
def Keeps (content : String → Bytes) : (accepted : Nat → String → Prop) → Store μ → Prop
  | accepted, base m j => LevelKeeps content (accepted 0) m j ∧ j = []
  | accepted, cached m j c =>
    LevelKeeps content (accepted 0) m j ∧ (∀ name, accepted 0 name → accepted 1 name) ∧
      Keeps content (fun k => accepted (k + 1)) c

namespace LevelKeeps

variable {accepted : String → Prop} {m m' : μ} {journal : List String} {name : String}

theorem get (h : LevelKeeps content accepted m journal) {out : Except Error StoredBytes}
    (hget : Medium.get m name = (out, m')) :
    LevelKeeps content accepted m' journal ∧ (∀ v, out = .ok v → v.bytes = content name) ∧
      ∀ missing, out = .error (.noSuchBlock missing) → held m name = none := by
  obtain ⟨hsound, heffect⟩ := KeepingMedium.get_effect h.sound hget
  refine ⟨⟨hsound, h.nonempty, ?_, ?_⟩, fun v hv => ?_, heffect.missing⟩
  · rw [heffect.unchanged]
    exact h.accepted_iff
  · rw [heffect.unchanged]
    exact h.content_eq
  · exact h.content_eq name v.bytes (heffect.found v hv)

/-- Where nothing waits for a flush, what was accepted is on the medium. -/
theorem held_of_flushed (h : LevelKeeps content accepted m []) (hname : accepted name) :
    held m name = some (content name) := by
  obtain hsome | hmem := (h.accepted_iff name).mp hname
  · obtain ⟨bs, hbs⟩ := Option.isSome_iff_exists.mp hsome
    rw [hbs, h.content_eq name bs hbs]
  · exact absurd hmem List.not_mem_nil

theorem put_error (h : LevelKeeps content accepted m journal) {e : Error}
    (hne : content name ≠ []) (hput : Medium.put m name (content name) = (.error e, m')) :
    LevelKeeps content accepted m' journal := by
  obtain ⟨hsound, heffect⟩ := KeepingMedium.put_effect h.sound hne hput
  have hheld : held m' = held m := by
    funext other
    by_cases ho : other = name
    · rw [ho]
      exact heffect.refused e rfl
    · exact heffect.others other ho
  exact ⟨hsound, h.nonempty, hheld ▸ h.accepted_iff, hheld ▸ h.content_eq⟩

theorem put_ok (h : LevelKeeps content accepted m journal) (hne : content name ≠ [])
    (hput : Medium.put m name (content name) = (.ok (), m')) :
    Sound m' ∧ (∀ other, (held m' other).isSome ↔ (held m other).isSome ∨ other = name) ∧
      ∀ other bs, held m' other = some bs → bs = content other := by
  obtain ⟨hsound, heffect⟩ := KeepingMedium.put_effect h.sound hne hput
  refine ⟨hsound, fun other => ?_, fun other bs hbs => ?_⟩
  · by_cases ho : other = name
    · subst ho
      rcases heffect.accepted rfl with hnew | ⟨hold, hsame⟩
      · simp [hnew]
      · simp [hsame, hold]
    · simp [heffect.others other ho, ho]
  · by_cases ho : other = name
    · subst ho
      rcases heffect.accepted rfl with hnew | ⟨-, hsame⟩
      · exact Option.some.inj (hbs.symm.trans hnew)
      · exact h.content_eq other bs (hsame ▸ hbs)
    · exact h.content_eq other bs (heffect.others other ho ▸ hbs)

theorem accept (h : LevelKeeps content accepted m journal) (hne : content name ≠ [])
    (hput : Medium.put m name (content name) = (.ok (), m')) :
    LevelKeeps content (fun other => accepted other ∨ other = name) m' journal := by
  obtain ⟨hsound, hheld, hcontent⟩ := h.put_ok hne hput
  refine ⟨hsound, ?_, fun other => ?_, hcontent⟩
  · rintro other (ho | rfl)
    · exact h.nonempty other ho
    · exact hne
  · rw [h.accepted_iff, hheld, or_right_comm]

theorem append (h : LevelKeeps content accepted m journal) (hne : content name ≠ []) :
    LevelKeeps content (fun other => accepted other ∨ other = name) m (journal ++ [name]) := by
  refine ⟨h.sound, ?_, fun other => ?_, h.content_eq⟩
  · rintro other (ho | rfl)
    · exact h.nonempty other ho
    · exact hne
  · rw [h.accepted_iff, List.mem_append, List.mem_singleton, or_assoc]

/-- A name that is brought from the journal to the medium stays accepted. -/
theorem advance (h : LevelKeeps content accepted m (name :: journal))
    (hput : Medium.put m name (content name) = (.ok (), m')) :
    LevelKeeps content accepted m' journal := by
  have hname : accepted name := (h.accepted_iff name).mpr (Or.inr List.mem_cons_self)
  obtain ⟨hsound, hheld, hcontent⟩ := h.put_ok (h.nonempty name hname) hput
  refine ⟨hsound, h.nonempty, fun other => ?_, hcontent⟩
  rw [h.accepted_iff, hheld, List.mem_cons, or_assoc]

end LevelKeeps

variable {accepted : Nat → String → Prop} {s s' : Store μ} {name : String}

theorem Keeps.congr {accepted' : Nat → String → Prop} (h : Keeps content accepted s)
    (hiff : ∀ k name, accepted k name ↔ accepted' k name) : Keeps content accepted' s := by
  have heq : accepted = accepted' := by
    funext k name
    exact propext (hiff k name)
  exact heq ▸ h

/-- A chain of sound media that hold nothing, where nothing waits for a flush. -/
def Empty (s : Store μ) : Prop :=
  ∀ level ∈ s.levels,
    Sound level.medium ∧ (∀ name, held level.medium name = none) ∧ level.journal = []

theorem LevelKeeps.of_empty {m : μ} (hsound : Sound m) (hheld : ∀ name, held m name = none) :
    LevelKeeps content (fun _ => False) m [] :=
  ⟨hsound, fun _ => False.elim, by simp [hheld], by simp [hheld]⟩

theorem Keeps.of_empty (h : s.Empty) : Keeps content (fun _ _ => False) s := by
  induction s with
  | base m j =>
    obtain ⟨hsound, hheld, rfl : j = []⟩ := h (base m j) List.mem_cons_self
    exact ⟨LevelKeeps.of_empty hsound hheld, rfl⟩
  | cached m j c ih =>
    obtain ⟨hsound, hheld, rfl : j = []⟩ := h (cached m j c) List.mem_cons_self
    exact ⟨LevelKeeps.of_empty hsound hheld, fun _ => id,
      ih fun level hl => h level (List.mem_cons_of_mem _ hl)⟩

theorem Keeps.level (h : Keeps content accepted s) {k : Nat} {level : Store μ}
    (hl : s.levels[k]? = some level) :
    LevelKeeps content (accepted k) level.medium level.journal ∧
      (k = s.depth → level.journal = []) := by
  induction s generalizing accepted k with
  | base m j =>
    obtain ⟨hlevel, rfl⟩ := h
    cases k with
    | zero =>
      obtain rfl : base m [] = level := by simpa [levels] using hl
      exact ⟨hlevel, fun _ => rfl⟩
    | succ k => simp [levels] at hl
  | cached m j c ih =>
    obtain ⟨hlevel, -, hcache⟩ := h
    cases k with
    | zero =>
      obtain rfl : cached m j c = level := by simpa [levels] using hl
      exact ⟨hlevel, fun hk => absurd hk (by simp [depth])⟩
    | succ k =>
      obtain ⟨hinner, hlast⟩ := ih hcache (by simpa [levels] using hl)
      exact ⟨hinner, fun hk => hlast (by simpa [depth] using hk)⟩

/-- Reading gives the bytes that were written, and does find every name that was accepted. -/
theorem Keeps.retrieve (h : Keeps content accepted s) {out : Except Error StoredBytes}
    (hr : s.retrieve name = (out, s')) :
    Keeps content accepted s' ∧ (∀ v, out = .ok v → v.bytes = content name) ∧
      (accepted 0 name → ∀ missing, out ≠ .error (.noSuchBlock missing)) := by
  induction s generalizing accepted s' out with
  | base m j =>
    obtain ⟨hout, rfl⟩ := Prod.mk.inj hr
    obtain ⟨hlevel, rfl⟩ := h
    obtain ⟨hlevel', hbytes, hmissing⟩ := hlevel.get (Prod.ext hout rfl)
    refine ⟨⟨hlevel', rfl⟩, hbytes, fun hname missing hm => ?_⟩
    -- nothing waits at the innermost level, so an accepted name is on its medium
    have hheld := (hlevel.accepted_iff name).mp hname
    simp [hmissing missing hm] at hheld
  | cached m j c ih =>
    obtain ⟨hlevel, hinner, hcache⟩ := h
    rw [Store.retrieve] at hr
    split at hr
    · next v c' hc =>
      cases hr
      obtain ⟨hcache', hbytes, -⟩ := ih hcache hc
      exact ⟨⟨hlevel, hinner, hcache'⟩, hbytes, fun _ _ h => by cases h⟩
    · next missing c' hc =>
      obtain ⟨hout, rfl⟩ := Prod.mk.inj hr
      obtain ⟨hcache', -, hfound⟩ := ih hcache hc
      obtain ⟨hlevel', hbytes, -⟩ := hlevel.get (Prod.ext hout rfl)
      exact ⟨⟨hlevel', hinner, hcache'⟩, hbytes,
        fun hname => absurd rfl (hfound (hinner name hname) missing)⟩
    · next e c' hne hc =>
      cases hr
      obtain ⟨hcache', -, -⟩ := ih hcache hc
      exact ⟨⟨hlevel, hinner, hcache'⟩, (fun _ h => by cases h),
        fun _ missing hm => hne missing (Except.error.inj hm)⟩

/-- A write that succeeds is accepted at every level, one that fails is accepted nowhere. -/
theorem Keeps.storeBytes (h : Keeps content accepted s) (hne : content name ≠ [])
    {out : Except Error Unit} (hs : s.storeBytes name (content name) = (out, s')) :
    (out = .ok () → Keeps content (fun k other => accepted k other ∨ other = name) s') ∧
      ∀ e, out = .error e → Keeps content accepted s' := by
  induction s generalizing accepted s' out with
  | base m j =>
    obtain ⟨hout, rfl⟩ := Prod.mk.inj hs
    obtain ⟨hlevel, rfl⟩ := h
    refine ⟨fun hok => ⟨?_, rfl⟩, fun e he => ⟨?_, rfl⟩⟩
    · exact hlevel.accept hne (Prod.ext (hout.trans hok) rfl)
    · exact hlevel.put_error hne (Prod.ext (hout.trans he) rfl)
  | cached m j c ih =>
    obtain ⟨hlevel, hinner, hcache⟩ := h
    rw [Store.storeBytes] at hs
    split at hs
    · next c' hc =>
      cases hs
      refine ⟨fun _ => ⟨hlevel.append hne, ?_, (ih hcache hc).1 rfl⟩, fun _ h => by cases h⟩
      rintro other (ho | ho)
      · exact Or.inl (hinner other ho)
      · exact Or.inr ho
    · next e c' hc =>
      cases hs
      exact ⟨(fun h => by cases h), fun _ _ => ⟨hlevel, hinner, (ih hcache hc).2 e rfl⟩⟩

/-- Draining brings names to the medium one by one, and loses none where it stops. -/
theorem keeps_drain {names : String → Prop} {m m' : μ} {queue queue' : List String} {c c' : Store μ}
    {out : Except Error Unit} (hlevel : LevelKeeps content names m queue)
    (hinner : ∀ name, names name → accepted 0 name) (hcache : Keeps content accepted c)
    (h : drain m queue c = (out, m', queue', c')) :
    LevelKeeps content names m' queue' ∧ Keeps content accepted c' ∧
      (out = .ok () → queue' = []) := by
  induction queue generalizing m c with
  | nil =>
    cases h
    exact ⟨hlevel, hcache, fun _ => rfl⟩
  | cons name rest ih =>
    have hname : names name := (hlevel.accepted_iff name).mpr (Or.inr List.mem_cons_self)
    rw [drain] at h
    split at h
    · next missing c₁ hc =>
      -- the cache has every name that waits
      obtain ⟨-, -, hfound⟩ := hcache.retrieve hc
      exact absurd rfl (hfound (hinner name hname) missing)
    · next e c₁ _ hc =>
      cases h
      exact ⟨hlevel, (hcache.retrieve hc).1, fun h => by cases h⟩
    · next v c₁ hc =>
      obtain ⟨hcache', hbytes, -⟩ := hcache.retrieve hc
      rw [hbytes v rfl] at h
      split at h
      · next e m₁ hput =>
        cases h
        exact ⟨hlevel.put_error (hlevel.nonempty name hname) hput, hcache', fun h => by cases h⟩
      · next m₁ hput => exact ih (hlevel.advance hput) hcache' h

/-- Flushing keeps every level, and empties every journal if it succeeds. -/
theorem Keeps.flush (h : Keeps content accepted s) {out : Except Error Unit}
    (hf : s.flush = (out, s')) :
    Keeps content accepted s' ∧ (out = .ok () → ∀ level ∈ s'.levels, level.journal = []) := by
  fun_induction Store.flush s generalizing accepted s' out with
  | case1 m =>
    cases hf
    exact ⟨h, fun _ level hl => by simp_all [levels, journal]⟩
  | case2 m name rest => cases h.2
  | case3 m j c e m' j' c' hdrain =>
    cases hf
    obtain ⟨hlevel, hinner, hcache⟩ := h
    obtain ⟨hlevel', hcache', -⟩ := keeps_drain hlevel hinner hcache hdrain
    exact ⟨⟨hlevel', hinner, hcache'⟩, fun h => by cases h⟩
  | case4 m j c m' j' c' hdrain out c'' hflush ih =>
    cases hf
    obtain ⟨hlevel, hinner, hcache⟩ := h
    obtain ⟨hlevel', hcache', hempty⟩ := keeps_drain hlevel hinner hcache hdrain
    obtain ⟨hcache'', hjournals⟩ := ih hcache' hflush
    refine ⟨⟨hlevel', hinner, hcache''⟩, fun hok level hl => ?_⟩
    rcases List.mem_cons.mp hl with rfl | hl
    · exact hempty rfl
    · exact hjournals hok level hl

theorem Keeps.atLevel {α : Type} {accepted' : Nat → String → Prop} {k : Nat}
    {f : Store μ → α × Store μ} {out : α} (h : Keeps content accepted s)
    (hat : s.atLevel k f = some (out, s'))
    (hgrow : ∀ i name, accepted i name → accepted' i name)
    (houter : ∀ i, i < k → accepted' i = accepted i)
    (hf : ∀ t t', Keeps content (fun i => accepted (i + k)) t → f t = (out, t') →
      Keeps content (fun i => accepted' (i + k)) t') : Keeps content accepted' s' := by
  induction k generalizing s s' accepted accepted' with
  | zero => exact hf s s' h (atLevel_zero_eq_some_iff.mp hat)
  | succ k ih =>
    obtain ⟨m, j, c, c', rfl, hc, rfl⟩ := atLevel_succ_eq_some_iff.mp hat
    obtain ⟨hlevel, hinner, hcache⟩ := h
    refine ⟨(houter 0 (Nat.succ_pos k)) ▸ hlevel, fun name hname => ?_, ?_⟩
    · rw [houter 0 (Nat.succ_pos k)] at hname
      exact hgrow 1 name (hinner name hname)
    · exact ih hcache hc (fun i => hgrow (i + 1))
        (fun i hi => houter (i + 1) (Nat.succ_lt_succ hi)) hf

end ContentAddressed.Store
