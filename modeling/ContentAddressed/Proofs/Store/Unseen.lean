import ContentAddressed.Proofs.Medium.Answering
import ContentAddressed.Proofs.Store.Levels

/-!
# Readers do not see a flush

A name that is brought to a medium was read from the cache in front of it, and the cache is where
every reader finds it first. So no flush changes what is read at any level, even where levels
disagree about the bytes under a name, and wherever the flush stops.
-/

namespace ContentAddressed.Store

variable {μ : Type} [Medium μ] [AnsweringMedium μ] {m m' : μ} {c c' s s' t : Store μ}
  {j j' : List String} {name : String}

/-- What reading a name gives where no read of a medium fails. -/
def answer : Store μ → String → Except Error StoredBytes
  | base m _, name => AnsweringMedium.answer m name
  | cached m _ c, name =>
    match c.answer name with
    | .error (.noSuchBlock _) => AnsweringMedium.answer m name
    | found => found

def answers (s : Store μ) : List (String → Except Error StoredBytes) := s.levels.map answer

theorem answers_cached (m : μ) (j : List String) (c : Store μ) :
    (cached m j c).answers = (cached m j c).answer :: c.answers := rfl

theorem answer_eq_of_answers_eq (h : s'.answers = s.answers) : s'.answer = s.answer := by
  have hhead (t : Store μ) : t.answers.head? = some t.answer := by cases t <;> rfl
  simpa [hhead] using congrArg List.head? h

/-- A level misses a name only if its cache and its medium do. -/
theorem missing_of_answer_cached {missing : String}
    (h : (cached m j c).answer name = .error (.noSuchBlock missing)) :
    (∃ other, c.answer name = .error (.noSuchBlock other)) ∧
      AnsweringMedium.answer m name = .error (.noSuchBlock missing) := by
  rw [answer] at h
  split at h
  · next other hc => exact ⟨⟨other, hc⟩, h⟩
  · next hne => exact absurd h (hne missing)

/-- The medium behind a cache matters only for names that the cache misses. -/
theorem answers_cached_congr (hc : c'.answers = c.answers)
    (hm : ∀ name missing, c.answer name = .error (.noSuchBlock missing) →
      AnsweringMedium.answer m' name = AnsweringMedium.answer m name) :
    (cached m' j' c').answers = (cached m j c).answers := by
  have hanswer : (cached m' j' c').answer = (cached m j c).answer := by
    funext name
    rw [answer, answer, answer_eq_of_answers_eq hc]
    split
    · next missing hmissing => exact hm name missing hmissing
    · rfl
  rw [answers_cached, answers_cached, hanswer, hc]

def Steady (s : Store μ) : Prop := ∀ level ∈ s.levels, AnsweringMedium.Steady level.medium

theorem steady_base : (base m j).Steady ↔ AnsweringMedium.Steady m := by
  simp [Steady, levels, medium]

theorem steady_cached : (cached m j c).Steady ↔ AnsweringMedium.Steady m ∧ c.Steady := by
  simp [Steady, levels, medium]

/-- Reading changes no answer, and succeeds only for names that are not missing. -/
theorem Steady.retrieve (h : s.Steady) {out : Except Error StoredBytes}
    (hr : s.retrieve name = (out, s')) :
    s'.Steady ∧ s'.answers = s.answers ∧
      ∀ v, out = .ok v → ∀ missing, s.answer name ≠ .error (.noSuchBlock missing) := by
  induction s generalizing s' out with
  | base m j =>
    obtain ⟨hout, rfl⟩ := Prod.mk.inj hr
    obtain ⟨hm', hsame, hfound⟩ := AnsweringMedium.get_answer (steady_base.mp h) (Prod.ext hout rfl)
    refine ⟨steady_base.mpr hm', congrArg (fun a => [a]) hsame, ?_⟩
    rintro v rfl missing hmissing
    rcases hfound with hv | ⟨e, he⟩
    · cases hv.trans hmissing
    · cases he
  | cached m j c ih =>
    obtain ⟨hm, hc⟩ := steady_cached.mp h
    rw [Store.retrieve] at hr
    split at hr
    · next v c' hcache =>
      cases hr
      obtain ⟨hc', hsame, hfound⟩ := ih hc hcache
      refine ⟨steady_cached.mpr ⟨hm, hc'⟩, answers_cached_congr hsame fun _ _ _ => rfl, ?_⟩
      rintro _ - missing hmissing
      obtain ⟨⟨other, hother⟩, -⟩ := missing_of_answer_cached hmissing
      exact hfound v rfl other hother
    · next _ c' hcache =>
      obtain ⟨hout, rfl⟩ := Prod.mk.inj hr
      obtain ⟨hc', hsame, -⟩ := ih hc hcache
      obtain ⟨hm', hanswer, hfound⟩ := AnsweringMedium.get_answer hm (Prod.ext hout rfl)
      refine ⟨steady_cached.mpr ⟨hm', hc'⟩,
        answers_cached_congr hsame fun name _ _ => congrFun hanswer name, ?_⟩
      rintro v rfl missing hmissing
      obtain ⟨-, hmissing⟩ := missing_of_answer_cached hmissing
      rcases hfound with hv | ⟨e, he⟩
      · cases hv.trans hmissing
      · cases he
    · next e c' _ hcache =>
      cases hr
      obtain ⟨hc', hsame, -⟩ := ih hc hcache
      exact ⟨steady_cached.mpr ⟨hm, hc'⟩, answers_cached_congr hsame fun _ _ _ => rfl,
        fun _ h => by cases h⟩

/-- Draining changes no answer of the cache, and none of the medium under a name that the cache
misses. -/
theorem steady_drain {queue queue' : List String} {out : Except Error Unit}
    (hm : AnsweringMedium.Steady m) (hc : c.Steady)
    (h : drain m queue c = (out, m', queue', c')) :
    AnsweringMedium.Steady m' ∧ c'.Steady ∧ c'.answers = c.answers ∧
      ∀ name missing, c.answer name = .error (.noSuchBlock missing) →
        AnsweringMedium.answer m' name = AnsweringMedium.answer m name := by
  induction queue generalizing m c with
  | nil =>
    cases h
    exact ⟨hm, hc, rfl, fun _ _ _ => rfl⟩
  | cons name rest ih =>
    rw [drain] at h
    split at h
    · next hr =>
      cases h
      obtain ⟨hc', hsame, -⟩ := hc.retrieve hr
      exact ⟨hm, hc', hsame, fun _ _ _ => rfl⟩
    · next hr =>
      cases h
      obtain ⟨hc', hsame, -⟩ := hc.retrieve hr
      exact ⟨hm, hc', hsame, fun _ _ _ => rfl⟩
    · next v c₁ hr =>
      obtain ⟨hc₁, hsame, hfound⟩ := hc.retrieve hr
      split at h
      · next e m₁ hput =>
        cases h
        obtain ⟨hm', -, hrefused⟩ := AnsweringMedium.put_answer hm hput
        exact ⟨hm', hc₁, hsame, fun name _ _ => congrFun (hrefused e rfl) name⟩
      · next m₁ hput =>
        obtain ⟨hm₁, hothers, -⟩ := AnsweringMedium.put_answer hm hput
        obtain ⟨hm', hc', hrest, hunder⟩ := ih hm₁ hc₁ h
        refine ⟨hm', hc', hrest.trans hsame, fun other missing hmissing => ?_⟩
        -- the name that was written is not one that the cache misses
        have hne : other ≠ name := by
          rintro rfl
          exact hfound v rfl missing hmissing
        rw [hunder other missing (by rw [answer_eq_of_answers_eq hsame, hmissing]),
          hothers other hne]

/-- A flush changes no answer at any level. -/
theorem Steady.flush (h : s.Steady) {out : Except Error Unit} (hf : s.flush = (out, s')) :
    s'.answers = s.answers := by
  fun_induction Store.flush s generalizing s' out with
  | case1 m =>
    cases hf
    rfl
  | case2 m name rest =>
    cases hf
    rfl
  | case3 m j c e m' j' c' hdrain =>
    cases hf
    obtain ⟨hm, hc⟩ := steady_cached.mp h
    obtain ⟨-, -, hsame, hunder⟩ := steady_drain hm hc hdrain
    exact answers_cached_congr hsame hunder
  | case4 m j c m' j' c' hdrain out c'' hflush ih =>
    cases hf
    obtain ⟨hm, hc⟩ := steady_cached.mp h
    obtain ⟨-, hc', hsame, hunder⟩ := steady_drain hm hc hdrain
    exact answers_cached_congr ((ih hc' hflush).trans hsame) hunder

theorem Steady.flush_atLevel (h : s.Steady) {k : Nat} {out : Except Error Unit}
    (hat : s.atLevel k Store.flush = some (out, s')) : s'.answers = s.answers := by
  induction k generalizing s s' with
  | zero => exact h.flush (atLevel_zero_eq_some_iff.mp hat)
  | succ k ih =>
    obtain ⟨m, j, c, c', rfl, hc, rfl⟩ := atLevel_succ_eq_some_iff.mp hat
    exact answers_cached_congr (ih (steady_cached.mp h).2 hc) fun _ _ _ => rfl

/-! ## Reads that do not fail -/

/-- Whether none of the reads that look for a name fails for a reason of its medium. A medium is
asked only if the cache in front of it misses the name. -/
def Unfailing (name : String) : Store μ → Prop
  | base m _ => (Medium.get m name).1 = AnsweringMedium.answer m name
  | cached m _ c => c.Unfailing name ∧
    ∀ missing, (c.retrieve name).1 = .error (.noSuchBlock missing) →
      (Medium.get m name).1 = AnsweringMedium.answer m name

theorem retrieve_of_unfailing (h : s.Unfailing name) : (s.retrieve name).1 = s.answer name := by
  induction s with
  | base m j => exact h
  | cached m j c ih =>
    obtain ⟨hc, hm⟩ := h
    rw [retrieve, answer, ← ih hc]
    cases hr : c.retrieve name with
    | mk out c' =>
    cases out with
    | ok v => rfl
    | error e =>
      cases e with
      | noSuchBlock missing => exact hm missing (congrArg Prod.fst hr)
      | _ => rfl

/-- Flushing is invisible to readers. After a flush at any level, and whether or not it succeeds,
every level gives for every name what it gave before, as long as the reads that are compared do not
fail for reasons of a medium. -/
theorem flush_unseen (hs : s.Steady) {k : Nat} {out : Except Error Unit}
    (hflush : s.atLevel k Store.flush = some (out, s')) {i : Nat} (ht : s.levels[i]? = some t) :
    ∃ t', s'.levels[i]? = some t' ∧ ∀ name, t.Unfailing name → t'.Unfailing name →
      (t'.retrieve name).1 = (t.retrieve name).1 := by
  have hlevel : s'.answers[i]? = s.answers[i]? := by rw [hs.flush_atLevel hflush]
  rw [answers, answers, List.getElem?_map, List.getElem?_map, ht] at hlevel
  obtain ⟨t', ht', hanswer⟩ := Option.map_eq_some_iff.mp hlevel
  refine ⟨t', ht', fun name hbefore hafter => ?_⟩
  rw [retrieve_of_unfailing hafter, retrieve_of_unfailing hbefore, hanswer]

/-- A flush that overwrites one of two names on the medium and fails at the other one. -/
theorem flush_unseen_overwritten :
    let c : Store (Flaky Backing) := plain ⟨.memory ⟨[("a", [9]), ("b", [6])]⟩, []⟩
    let s : Store (Flaky Backing) := cached
      ⟨.faulty { table := [("a", [7]), ("b", [8])] }, [none, some Faulty.offline]⟩ ["a", "b"] c
    let s' : Store (Flaky Backing) := cached
      ⟨.faulty { table := [("a", [9]), ("b", [8])], puts := ["a"] }, []⟩ ["b"] c
    s.Steady ∧ s.atLevel 0 Store.flush = some (.error Faulty.offline, s') ∧
      s.Unfailing "a" ∧ s'.Unfailing "a" ∧ (s'.retrieve "a").1 = (s.retrieve "a").1 := by
  intro c s s'
  have hs : s.Steady := steady_cached.mpr ⟨trivial, steady_base.mpr trivial⟩
  have hflush : s.flush = (.error Faulty.offline, s') := flush_of_drain_error rfl
  have hat : s.atLevel 0 Store.flush = some (.error Faulty.offline, s') := congrArg some hflush
  have hbefore : s.Unfailing "a" := ⟨rfl, fun _ h => by cases h⟩
  have hafter : s'.Unfailing "a" := ⟨rfl, fun _ h => by cases h⟩
  obtain ⟨t', ht', hsame⟩ := flush_unseen hs hat (i := 0) rfl
  cases ht'
  exact ⟨hs, hat, hbefore, hafter, hsame "a" hbefore hafter⟩

end ContentAddressed.Store
