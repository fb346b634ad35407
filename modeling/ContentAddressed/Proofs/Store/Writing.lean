import ContentAddressed.Proofs.Block.Frame
import ContentAddressed.Proofs.Medium.Accepting
import ContentAddressed.Proofs.Store.Waiting

/-!
# What a write does, also when it fails

The bytes go to the innermost medium, and only if that accepts them does their name go to the
journals in front of it. So a write that fails leaves no trace, and a sequence of writes leaves what
those before the failing one do.
-/

namespace ContentAddressed.Store

variable {μ γ : Type} {m m' : μ} {s s' : Store μ} {name : String} {bs : Bytes} {e : Error}
  {writes : List (String × Bytes)}

/-- The chain with another innermost medium, and with names put into the journal of every level that
has a cache. -/
def noting (names : List String) (m : μ) : Store μ → Store μ
  | base _ j => base m j
  | cached outer j c => cached outer (j ++ names) (c.noting names m)

theorem innermost_noting (names : List String) (m : μ) (s : Store μ) :
    (s.noting names m).innermost = m := by
  induction s with
  | base m₀ j => rfl
  | cached outer j c ih => exact ih

theorem noting_noting (names more : List String) (m m' : μ) (s : Store μ) :
    (s.noting names m).noting more m' = s.noting (names ++ more) m' := by
  induction s with
  | base m₀ j => rfl
  | cached outer j c ih => simp [noting, ih]

theorem noting_nil (s : Store μ) : s.noting [] s.innermost = s := by
  induction s with
  | base m j => rfl
  | cached outer j c ih => simpa [noting, innermost] using ih

/-- Where no name is put into a journal, a view of the chain is a view of its innermost medium. -/
theorem mapMedia_noting_nil {view : μ → γ} (h : view m = view s.innermost) :
    (s.noting [] m).mapMedia view = s.mapMedia view := by
  induction s with
  | base m₀ j => exact congrArg (base · j) h
  | cached outer j c ih => simp [noting, mapMedia, ih h]

variable [Medium μ]

theorem storeBytes_of_accepted (h : Medium.put s.innermost name bs = (.ok (), m)) :
    s.storeBytes name bs = (.ok (), s.noting [name] m) := by
  induction s with
  | base m₀ j =>
    have hput : Medium.put m₀ name bs = (.ok (), m) := h
    simp only [storeBytes, hput, noting]
  | cached outer j c ih =>
    rw [storeBytes, ih h]
    rfl

theorem storeBytes_of_refused (h : Medium.put s.innermost name bs = (.error e, m)) :
    s.storeBytes name bs = (.error e, s.noting [] m) := by
  induction s with
  | base m₀ j =>
    have hput : Medium.put m₀ name bs = (.error e, m) := h
    simp only [storeBytes, hput, noting]
  | cached outer j c ih =>
    rw [storeBytes, ih h]
    simp [noting]

/-- A write fails only with the error of the innermost medium, which alone may change. -/
theorem refused_of_storeBytes (h : s.storeBytes name bs = (.error e, s')) :
    ∃ m, Medium.put s.innermost name bs = (.error e, m) ∧ s' = s.noting [] m := by
  cases hput : Medium.put s.innermost name bs with
  | mk out m =>
  cases out with
  | ok _ => cases (storeBytes_of_accepted hput).symm.trans h
  | error e' =>
    cases (storeBytes_of_refused hput).symm.trans h
    exact ⟨m, rfl, rfl⟩

/-- Writes that the innermost medium accepts are all noted, in their order, at every level that has
a cache. -/
theorem storeEach_of_accepted (h : Accepts s.innermost writes m) :
    s.storeEach writes = (.ok (), s.noting (writes.map Prod.fst) m) := by
  induction writes generalizing s with
  | nil =>
    cases h
    exact Prod.ext rfl s.noting_nil.symm
  | cons w writes ih =>
    obtain - | @⟨_, m₁, _, name, bs, _, hput, hrest⟩ := h
    have hnext : Accepts (s.noting [name] m₁).innermost writes m := by
      rwa [innermost_noting]
    rw [storeEach, storeBytes_of_accepted hput]
    simp only [ih hnext, noting_noting, List.map_cons, List.singleton_append]

/-- A sequence of writes that fails does so at one of them, after those before it. -/
theorem exists_refused_of_storeEach (h : s.storeEach writes = (.error e, s')) :
    ∃ before name bs after m m', writes = before ++ (name, bs) :: after ∧
      Accepts s.innermost before m ∧ Medium.put m name bs = (.error e, m') ∧
      s' = s.noting (before.map Prod.fst) m' := by
  induction writes generalizing s with
  | nil => cases h
  | cons w writes ih =>
    obtain ⟨name, bs⟩ := w
    cases hput : Medium.put s.innermost name bs with
    | mk out m =>
    rw [storeEach] at h
    cases out with
    | error e' =>
      rw [storeBytes_of_refused hput] at h
      cases h
      exact ⟨[], name, bs, writes, s.innermost, m, rfl, .nil _, hput, rfl⟩
    | ok _ =>
      rw [storeBytes_of_accepted hput] at h
      obtain ⟨before, name', bs', after, m₁, m', rfl, haccepts, hrefused, rfl⟩ := ih h
      rw [innermost_noting] at haccepts
      exact ⟨(name, bs) :: before, name', bs', after, m₁, m', rfl, .cons hput haccepts, hrefused,
        noting_noting _ _ _ _ _⟩

/-- A chain that was stopped at one of some writes. Those before it went all the way, and are noted
once at every level that has a cache; of that one and of those behind it nothing is seen. -/
def StoppedWriting (view : μ → γ) (s : Store μ) (writes : List (String × Bytes)) (e : Error)
    (s' : Store μ) : Prop :=
  ∃ before name bs after m, writes = before ++ (name, bs) :: after ∧
    Accepts s.innermost before m ∧
    s.storeEach before = (.ok (), s.noting (before.map Prod.fst) m) ∧
    (s.noting (before.map Prod.fst) m).storeBytes name bs = (.error e, s') ∧
    s'.mapMedia view = (s.noting (before.map Prod.fst) m).mapMedia view

theorem stoppedWriting_of_storeEach {view : μ → γ} (hrefuse : KeptByRefusal view)
    (h : s.storeEach writes = (.error e, s')) : s.StoppedWriting view writes e s' := by
  obtain ⟨before, name, bs, after, m, m', rfl, haccepts, hput, rfl⟩ :=
    exists_refused_of_storeEach h
  have hlast : Medium.put (s.noting (before.map Prod.fst) m).innermost name bs =
      (.error e, m') := by
    rw [innermost_noting, hput]
  have hnoted : s.noting (before.map Prod.fst) m' =
      (s.noting (before.map Prod.fst) m).noting [] m' := by
    rw [noting_noting, List.append_nil]
  refine ⟨before, name, bs, after, m, rfl, haccepts, storeEach_of_accepted haccepts, ?_, ?_⟩
  · rw [storeBytes_of_refused hlast, hnoted]
  · rw [hnoted]
    exact mapMedia_noting_nil (hrefuse _ _ _ _ _ hlast)

/-- A write that fails leaves no trace at any level. A file whose blocks are not all stored leaves
the chain as after the blocks in front of one of them, those without encryption first, and so does a
list of blocks. -/
theorem failed_writes_leave_no_trace {view : μ → γ} (hrefuse : KeptByRefusal view) (s : Store μ) :
    (∀ name bs e s', s.storeBytes name bs = (.error e, s') →
      s'.mapMedia view = s.mapMedia view) ∧
    (∀ (t : FileTree) e s', s.storeFile t = (.error e, s') →
      s.StoppedWriting view (t.plaintext.map (fun b => (b.name, b.frame)) ++
        t.encrypted.map fun b => (b.name.encode, b.ciphertext)) e s') ∧
    ∀ (blocks : List Block) e s', s.storeAll blocks = (.error e, s') →
      s.StoppedWriting view (blocks.map fun b => (b.name, b.frame)) e s' := by
  refine ⟨fun name bs e s' h => ?_, fun t e s' h => stoppedWriting_of_storeEach hrefuse h,
    fun blocks e s' h => stoppedWriting_of_storeEach hrefuse h⟩
  obtain ⟨m, hput, rfl⟩ := refused_of_storeBytes h
  exact mapMedia_noting_nil (hrefuse _ _ _ _ _ hput)

/-- A file of two blocks, of which the memory takes one and refuses the other. -/
theorem failed_writes_leave_no_trace_second :
    let b : Block := ⟨[], [], Block.frameOfLinks [], .of .standard (Block.frameOfLinks [])⟩
    let e : SealedBlock := ⟨[1], .of .standard [1], .ofFingerprint (.of .standard [1]), none⟩
    let t : FileTree := ⟨e.link, [⟨b, some e⟩, ⟨b, none⟩]⟩
    let s : Store (Flaky Backing) :=
      withCache ⟨.disk { path := "blocks" }, []⟩ (plain ⟨.memory {}, [none, some Faulty.offline]⟩)
    KeptByRefusal (fun f : Flaky Backing => f.medium.nearSide) ∧
    ∃ s', s.storeFile t = (.error Faulty.offline, s') ∧ s'.journal = [b.name] ∧
      s.StoppedWriting (fun f : Flaky Backing => f.medium.nearSide)
        [(b.name, b.frame), (e.name.encode, e.ciphertext)] Faulty.offline s' := by
  intro b e t s
  have hrefuse := Flaky.keptByRefusal Backing.keptByRefusal_nearSide
  have hstore : s.storeFile t = (.error Faulty.offline,
      cached ⟨.disk { path := "blocks" }, []⟩ [b.name]
        (plain ⟨.memory ⟨[(b.name, b.frame)]⟩, []⟩)) := rfl
  obtain ⟨-, hfile, -⟩ := failed_writes_leave_no_trace hrefuse s
  exact ⟨hrefuse, _, hstore, rfl, hfile t _ _ hstore⟩

end ContentAddressed.Store
