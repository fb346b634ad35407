import ContentAddressed.Proofs.Store.Levels

/-!
# What a flush does, also when it fails

A flush brings the names of a journal to the medium, oldest first, each with the bytes that the
cache answers. It stops at the first name that cannot be brought over; the names before it are on
the medium, and those that are left wait in the same order.
-/

namespace ContentAddressed.Store

variable {μ γ : Type} [Medium μ] {view : μ → γ} {m m₁ m' : μ} {c c₁ c' : Store μ}
  {moved : List (String × Bytes)} {name : String} {queue queue' rest : List String}

/-- A chain before and after reads that it answered, with the bytes of each. -/
inductive Answers : Store μ → List (String × Bytes) → Store μ → Prop
  | nil (c : Store μ) : Answers c [] c
  | cons {c c₁ c' : Store μ} {name : String} {v : StoredBytes} {reads : List (String × Bytes)} :
    c.retrieve name = (.ok v, c₁) → Answers c₁ reads c' → Answers c ((name, v.bytes) :: reads) c'

theorem Answers.mapMedia (hread : KeptByReading view) (h : c.Answers moved c') :
    c'.mapMedia view = c.mapMedia view := by
  induction h with
  | nil c => rfl
  | @cons c c₁ c' name v reads hr _ ih =>
    have hkept := mapMedia_retrieve hread c name
    rw [hr] at hkept
    exact ih.trans hkept

/-! ## Draining -/

/-- Names that were brought over do not matter for how a drain goes on. -/
theorem drain_append (hreads : c.Answers moved c₁) (hwrites : Accepts m moved m₁)
    (left : List String) : drain m (moved.map Prod.fst ++ left) c = drain m₁ left c₁ := by
  induction hreads generalizing m with
  | nil c =>
    cases hwrites
    rfl
  | cons hr _ ih =>
    obtain - | ⟨hput, hwrites⟩ := hwrites
    rw [List.map_cons, List.cons_append, drain, hr]
    simp only [hput]
    exact ih hwrites

theorem drain_of_missing {missing : String}
    (h : c.retrieve name = (.error (.noSuchBlock missing), c')) (m : μ) (rest : List String) :
    drain m (name :: rest) c = (.error (.cacheInconsistency name), m, rest, c') := by
  rw [drain, h]

theorem drain_of_unread {e : Error} (h : c.retrieve name = (.error e, c'))
    (he : ∀ missing, e ≠ .noSuchBlock missing) (m : μ) (rest : List String) :
    drain m (name :: rest) c = (.error e, m, name :: rest, c') := by
  rw [drain, h]
  split
  · next heq =>
    cases heq
    exact absurd rfl (he _)
  · next heq =>
    cases heq
    rfl
  · next heq => cases heq

theorem drain_of_refused {v : StoredBytes} {e : Error} (h : c.retrieve name = (.ok v, c'))
    (hput : Medium.put m name v.bytes = (.error e, m')) (rest : List String) :
    drain m (name :: rest) c = (.error e, m', name :: rest, c') := by
  rw [drain, h]
  simp only [hput]

/-- As many names as possible are brought over: the next one, if it is answered, is refused. -/
theorem exists_moved (m : μ) (queue : List String) (c : Store μ) :
    ∃ moved left m₁ c₁, queue = moved.map Prod.fst ++ left ∧ c.Answers moved c₁ ∧
      Accepts m moved m₁ ∧ ∀ name rest, left = name :: rest → ∀ v c₂,
        c₁.retrieve name = (.ok v, c₂) → ∃ e m₂, Medium.put m₁ name v.bytes = (.error e, m₂) := by
  induction queue generalizing m c with
  | nil => exact ⟨[], [], m, c, rfl, .nil c, .nil m, fun _ _ h => by cases h⟩
  | cons name rest ih =>
    -- nothing is brought over if the first name is not
    have hstop (hfail : ∀ v c₂, c.retrieve name = (.ok v, c₂) →
        ∃ e m₂, Medium.put m name v.bytes = (.error e, m₂)) :
        ∃ moved left m₁ c₁, name :: rest = moved.map Prod.fst ++ left ∧ c.Answers moved c₁ ∧
          Accepts m moved m₁ ∧ ∀ name rest, left = name :: rest → ∀ v c₂,
            c₁.retrieve name = (.ok v, c₂) →
              ∃ e m₂, Medium.put m₁ name v.bytes = (.error e, m₂) := by
      refine ⟨[], name :: rest, m, c, rfl, .nil c, .nil m, ?_⟩
      rintro _ _ ⟨⟩
      exact hfail
    cases hr : c.retrieve name with
    | mk out c₁ =>
    cases out with
    | error e => exact hstop fun v c₂ h => by cases hr.symm.trans h
    | ok v =>
      cases hput : Medium.put m name v.bytes with
      | mk out m₁ =>
      cases out with
      | error e =>
        refine hstop fun v' c₂ h => ?_
        cases hr.symm.trans h
        exact ⟨e, m₁, hput⟩
      | ok _ =>
        obtain ⟨moved, left, m₂, c₂, rfl, hreads, hwrites, hnext⟩ := ih m₁ c₁
        exact ⟨(name, v.bytes) :: moved, left, m₂, c₂, rfl, .cons hr hreads, .cons hput hwrites,
          hnext⟩

theorem queue_eq_nil_of_drain (h : drain m queue c = (.ok (), m', queue', c')) : queue' = [] := by
  obtain ⟨moved, left, m₁, c₁, rfl, hreads, hwrites, hnext⟩ := exists_moved m queue c
  rw [drain_append hreads hwrites] at h
  cases left with
  | nil =>
    cases h
    rfl
  | cons name rest =>
    rw [drain] at h
    split at h
    · cases h
    · cases h
    · next hr =>
      obtain ⟨e, m₂, hput⟩ := hnext name rest rfl _ _ hr
      rw [hput] at h
      cases h

/-! ## Flushing -/

theorem journals_empty_of_flush {s s' : Store μ} (h : s.flush = (.ok (), s')) :
    ∀ level ∈ s'.levels, level.journal = [] := by
  fun_induction Store.flush s generalizing s' with
  | case1 m =>
    cases h
    simp [levels, journal]
  | case2 m name rest => cases h
  | case3 m j c e m' j' c' hdrain => cases h
  | case4 m j c m' j' c' hdrain out c'' hflush ih =>
    cases h
    refine List.forall_mem_cons.mpr ⟨?_, ih hflush⟩
    exact queue_eq_nil_of_drain hdrain

/-- The exact effect of a flush. Where all names of the journal are brought over, the rest is the
flush of the cache. Where some are and the next one fails, the medium has accepted exactly those
before it, its error is returned, and it waits on with those behind it; only a name that the cache
does not have is dropped, and reported as an inconsistency. In no case does draining change a
journal of the cache, or a view of its media that reading keeps. One of these cases always holds,
and a flush succeeds only if it leaves every journal empty. -/
theorem flush_effect (hread : KeptByReading view) (hrefuse : KeptByRefusal view) :
    (∀ (m m₁ : μ) (c c₁ : Store μ) (moved : List (String × Bytes)),
      c.Answers moved c₁ → Accepts m moved m₁ →
        c₁.mapMedia view = c.mapMedia view ∧
        (cached m (moved.map Prod.fst) c).flush = (c₁.flush.1, cached m₁ [] c₁.flush.2) ∧
        ∀ name rest out c₂, c₁.retrieve name = (out, c₂) →
          c₂.mapMedia view = c.mapMedia view ∧
          (∀ missing, out = .error (.noSuchBlock missing) →
            (cached m (moved.map Prod.fst ++ name :: rest) c).flush =
              (.error (.cacheInconsistency name), cached m₁ rest c₂)) ∧
          (∀ e, out = .error e → (∀ missing, e ≠ .noSuchBlock missing) →
            (cached m (moved.map Prod.fst ++ name :: rest) c).flush =
              (.error e, cached m₁ (name :: rest) c₂)) ∧
          ∀ v e m₂, out = .ok v → Medium.put m₁ name v.bytes = (.error e, m₂) →
            view m₂ = view m₁ ∧
            (cached m (moved.map Prod.fst ++ name :: rest) c).flush =
              (.error e, cached m₂ (name :: rest) c₂)) ∧
    (∀ (m : μ) (queue : List String) (c : Store μ), ∃ moved left m₁ c₁,
      queue = moved.map Prod.fst ++ left ∧ c.Answers moved c₁ ∧ Accepts m moved m₁ ∧
        ∀ name rest, left = name :: rest → ∀ v c₂, c₁.retrieve name = (.ok v, c₂) →
          ∃ e m₂, Medium.put m₁ name v.bytes = (.error e, m₂)) ∧
    (∀ m : μ, (base m []).flush = (.ok (), base m [])) ∧
    (∀ (m : μ) name rest,
      (base m (name :: rest)).flush = (.error (.cacheInconsistency name), base m rest)) ∧
    ∀ s s' : Store μ, s.flush = (.ok (), s') → ∀ level ∈ s'.levels, level.journal = [] := by
  refine ⟨fun m m₁ c c₁ moved hreads hwrites => ?_, exists_moved, fun m => by rw [flush],
    fun m name rest => by rw [flush], fun s s' => journals_empty_of_flush⟩
  have hkept : c₁.mapMedia view = c.mapMedia view := hreads.mapMedia hread
  refine ⟨hkept, ?_, fun name rest out c₂ hr => ⟨?_, ?_, ?_, ?_⟩⟩
  · have hdrain := drain_append hreads hwrites []
    rw [List.append_nil] at hdrain
    exact flush_of_drain_ok (hdrain.trans rfl)
  · have hlast := mapMedia_retrieve hread c₁ name
    rw [hr] at hlast
    exact hlast.trans hkept
  · rintro missing rfl
    exact flush_of_drain_error ((drain_append hreads hwrites _).trans (drain_of_missing hr _ _))
  · rintro e rfl he
    exact flush_of_drain_error ((drain_append hreads hwrites _).trans (drain_of_unread hr he _ _))
  · rintro v e m₂ rfl hput
    exact ⟨hrefuse m₁ name v.bytes e m₂ hput, flush_of_drain_error
      ((drain_append hreads hwrites _).trans (drain_of_refused hr hput _))⟩

def outOfSpace : Flaky Backing := ⟨.disk { path := "blocks" }, [none, some Faulty.offline]⟩

/-- Of three names that wait for it the first one is on the disk, and two wait on. -/
theorem flush_effect_second_refused :
    let front : Store (Flaky Backing) := plain ⟨.memory ⟨[("a", [1]), ("b", []), ("c", [3])]⟩, []⟩
    KeptByReading (fun f : Flaky Backing => f.medium.nearSide) ∧
    KeptByRefusal (fun f : Flaky Backing => f.medium.nearSide) ∧
    front.Answers [("a", [1])] front ∧
    (∃ disk, Accepts outOfSpace [("a", [1])] disk ∧ disk.verdicts = [some Faulty.offline]) ∧
    ∃ disk : Flaky Backing, disk.medium.nearSide =
        .disk { path := "blocks", folder := [(.text "a", .file [1])] } ∧
      (cached outOfSpace ["a", "b", "c"] front).flush =
        (.error Faulty.offline, cached disk ["b", "c"] front) := by
  intro front
  have hread := Flaky.keptByReading Backing.keptByReading_nearSide
  have hrefuse := Flaky.keptByRefusal Backing.keptByRefusal_nearSide
  have hreads : front.Answers [("a", [1])] front := .cons (v := ⟨[1], false⟩) rfl (.nil front)
  have hwrites : Accepts outOfSpace [("a", [1])]
      ⟨.disk { path := "blocks", folder := [(.text "a", .file [1])] }, [some Faulty.offline]⟩ :=
    .cons rfl (.nil _)
  obtain ⟨-, -, hnext⟩ := (flush_effect hread hrefuse).1 _ _ _ _ _ hreads hwrites
  obtain ⟨-, -, -, hrefused⟩ := hnext "b" ["c"] _ _ rfl
  obtain ⟨hview, hflush⟩ := hrefused ⟨[], false⟩ _ _ rfl rfl
  exact ⟨hread, hrefuse, hreads, ⟨_, hwrites, rfl⟩, _, hview, hflush⟩

end ContentAddressed.Store
