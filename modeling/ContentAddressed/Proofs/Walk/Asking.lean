import ContentAddressed.Proofs.Walk.Step
import ContentAddressed.Proofs.Walk.Ways
import ContentAddressed.Walk.Halting

/-!
# What a walk asks for

Only reading changes a store. A walker that writes down the names that it asks for goes the same way
as one that does not.
-/

namespace ContentAddressed.Walker

variable {σ : Type} {w : Walker σ} {g : LinkGraph} {l : Link} {depth : Nat} {store store' : σ}

def afterReads (w : Walker σ) (store : σ) (names : List String) : σ :=
  names.foldl (fun store name => (w.retrieve name store).2) store

theorem afterReads_append (w : Walker σ) (store : σ) (names more : List String) :
    w.afterReads store (names ++ more) = w.afterReads (w.afterReads store names) more :=
  List.foldl_append

theorem read_state (w : Walker σ) (l : Link) (store : σ) :
    (w.read l store).2 = (w.retrieve l.target store).2 := by
  rw [read]
  split
  · next h => rw [h]
  · next h =>
    rw [h]
    split
    · split <;> rfl
    · rfl

/-! ## Stores that answer as a graph says -/

/-- A store that answers every name as the graph says, whatever was asked for before. -/
structure Sees (w : Walker σ) (g : LinkGraph) (store : σ) : Prop where
  keys : w.keys = g.keys
  answers : ∀ names name, (w.retrieve name (w.afterReads store names)).1 = g.answer name

theorem Sees.retrieve (h : w.Sees g store) (name : String) :
    w.Sees g (w.retrieve name store).2 :=
  ⟨h.keys, fun names other => h.answers (name :: names) other⟩

theorem Sees.read (h : w.Sees g store) (l : Link) : (w.read l store).1 = g.read l := by
  have hanswer : (w.retrieve l.target store).1 = g.answer l.target := h.answers [] l.target
  rw [Walker.read, LinkGraph.read, ← hanswer, ← h.keys]
  split
  · next hr => simp only [hr]
  · next v _ hr =>
    simp only [hr]
    split
    · cases Link.openBytes? w.keys l v.bytes <;> rfl
    · rfl

theorem Sees.of_read (h : w.Sees g store) {out : Except Error Found}
    (hread : w.read l store = (out, store')) : g.read l = out ∧ w.Sees g store' := by
  have hstate := w.read_state l store
  have hout := h.read l
  have hsees := h.retrieve l.target
  rw [hread] at hstate hout
  rw [← hstate] at hsees
  exact ⟨hout.symm, hsees⟩

/-! ## Records -/

abbrev Call := String × Except Error StoredBytes

/-- The walker that writes down what it asks for, the latest call first. -/
def recording (w : Walker σ) : Walker (σ × List Call) where
  retrieve name p :=
    let (answer, store) := w.retrieve name p.1
    (answer, store, (name, answer) :: p.2)
  keys := w.keys
  limit := w.limit

theorem recording_read (w : Walker σ) (l : Link) (store : σ) (calls : List Call) :
    w.recording.read l (store, calls) =
      ((w.read l store).1, (w.read l store).2,
        (l.target, (w.retrieve l.target store).1) :: calls) := by
  rcases h : w.retrieve l.target store with ⟨e | v, store'⟩
  · simp only [read, recording, h]
  · simp only [read, recording, h]
    split
    · split <;> rfl
    · rfl

theorem recording_read_iff {p p' : σ × List Call} {out : Except Error Found} :
    w.recording.read l p = (out, p') ↔
      w.read l p.1 = (out, p'.1) ∧ p'.2 = (l.target, (w.retrieve l.target p.1).1) :: p.2 := by
  obtain ⟨store', calls'⟩ := p'
  rw [recording_read]
  simp only [Prod.ext_iff, and_assoc, eq_comm (a := calls')]

/-- What is written down does not matter to a step. -/
theorem Follows.recording {s : WalkState} {out : Outcome σ WalkState}
    (h : w.Follows l depth s store out) (calls : List Call) :
    ∃ calls', w.recording.Follows l depth s (store, calls) (out.1, out.2, calls') := by
  cases h with
  | beyond hd => exact ⟨calls, .beyond hd⟩
  | known hd hv hle => exact ⟨calls, .known hd hv hle⟩
  | fail hd hv hread =>
    refine ⟨(l.target, (w.retrieve l.target store).1) :: calls, .fail hd hv ?_⟩
    rw [recording_read, hread]
  | enter hd hv hread =>
    refine ⟨(l.target, (w.retrieve l.target store).1) :: calls, .enter hd hv ?_⟩
    rw [recording_read, hread]
  | shorten hd hv hlimit hlt => exact ⟨calls, .shorten hd hv hlimit hlt⟩

theorem Runs.recording {s : WalkState} {out : Outcome σ WalkResult} (h : w.Runs s store out)
    (calls : List Call) :
    ∃ calls', w.recording.Runs s (store, calls) (out.1, out.2, calls') := by
  induction h generalizing calls with
  | done tooDeep visits store => exact ⟨calls, Runs.done tooDeep visits (store, calls)⟩
  | fail hl =>
    obtain ⟨calls', hl'⟩ := (follows_iff.mpr hl).recording calls
    exact ⟨calls', Runs.fail (follows_iff.mp hl')⟩
  | step hl _ ih =>
    obtain ⟨calls', hl'⟩ := (follows_iff.mpr hl).recording calls
    obtain ⟨calls'', hruns⟩ := ih calls'
    exact ⟨calls'', Runs.step (follows_iff.mp hl') hruns⟩

theorem Follows.calls_subset {s : WalkState} {p : σ × List Call}
    {out : Outcome (σ × List Call) WalkState} (h : w.recording.Follows l depth s p out) :
    p.2 ⊆ out.2.2 := by
  cases h with
  | beyond | known | shorten => exact List.Subset.refl p.2
  | fail hd hv hread =>
    rw [(recording_read_iff.mp hread).2]
    exact List.subset_cons_self _ _
  | enter hd hv hread =>
    rw [(recording_read_iff.mp hread).2]
    exact List.subset_cons_self _ _

theorem Runs.calls_subset {s : WalkState} {p : σ × List Call}
    {out : Outcome (σ × List Call) WalkResult} (h : w.recording.Runs s p out) : p.2 ⊆ out.2.2 := by
  induction h with
  | done => exact List.Subset.refl _
  | fail hl => exact (follows_iff.mpr hl).calls_subset
  | step hl _ ih => exact List.Subset.trans (follows_iff.mpr hl).calls_subset ih

/-- Every call was answered by the store, as it was after some reads. -/
def Answered (w : Walker σ) (store : σ) (p : σ × List Call) : Prop :=
  (∃ names, p.1 = w.afterReads store names) ∧
    ∀ call ∈ p.2, ∃ names, call.2 = (w.retrieve call.1 (w.afterReads store names)).1

theorem Answered.read {p p' : σ × List Call} {out : Except Error Found} (h : w.Answered store p)
    (hread : w.recording.read l p = (out, p')) : w.Answered store p' := by
  obtain ⟨hread, hcalls⟩ := recording_read_iff.mp hread
  obtain ⟨⟨names, hnames⟩, hanswered⟩ := h
  constructor
  · refine ⟨names ++ [l.target], ?_⟩
    have hstate := w.read_state l p.1
    rw [hread] at hstate
    rw [afterReads_append, ← hnames]
    exact hstate
  · rw [hcalls]
    exact List.forall_mem_cons.mpr ⟨⟨names, by rw [hnames]⟩, hanswered⟩

theorem Answered.follow {s : WalkState} {p : σ × List Call}
    {out : Outcome (σ × List Call) WalkState} (h : w.Answered store p)
    (hl : w.recording.Follows l depth s p out) : w.Answered store out.2 := by
  cases hl with
  | beyond | known | shorten => exact h
  | fail hd hv hread => exact h.read hread
  | enter hd hv hread => exact h.read hread

theorem Answered.runs {s : WalkState} {p : σ × List Call}
    {out : Outcome (σ × List Call) WalkResult} (h : w.Answered store p)
    (hruns : w.recording.Runs s p out) : w.Answered store out.2 := by
  induction hruns with
  | done => exact h
  | fail hl => exact h.follow (follows_iff.mpr hl)
  | step hl _ ih => exact ih (h.follow (follows_iff.mpr hl))

theorem Halts.recording {s : WalkState} (h : w.Halts s store) (calls : List Call) :
    w.recording.Halts s (store, calls) := by
  obtain ⟨calls', hruns⟩ := (runs_run h).recording calls
  exact hruns.halts

/-- What a walk asks for, and what it is answered, the latest call first. -/
def calls (w : Walker σ) (root : Link) (store : σ) (h : w.Halts (.start root) store) : List Call :=
  (w.recording.fetch root (store, []) (h.recording [])).2.2

/-- Apart from its record, a walk that writes down its calls is the same walk. -/
theorem recording_fetch {root : Link} (h : w.Halts (.start root) store) :
    w.recording.fetch root (store, []) (h.recording []) =
      ((w.fetch root store h).1, (w.fetch root store h).2, w.calls root store h) := by
  obtain ⟨calls, hruns⟩ := (runs_run h).recording []
  have hrun := hruns.run_eq (h.recording [])
  rw [Walker.calls]
  simp only [fetch, hrun]

theorem runs_recording {root : Link} (h : w.Halts (.start root) store) :
    w.recording.Runs (.start root) (store, [])
      ((w.fetch root store h).1, (w.fetch root store h).2, w.calls root store h) := by
  rw [← recording_fetch h]
  exact runs_run (h.recording [])

/-- What a walk is answered is what the store answers after some reads. -/
theorem exists_of_mem_calls {root : Link} {h : w.Halts (.start root) store} {call : Call}
    (hcall : call ∈ w.calls root store h) :
    ∃ names, call.2 = (w.retrieve call.1 (w.afterReads store names)).1 := by
  have hstart : w.Answered store (store, []) := ⟨⟨[], rfl⟩, fun _ h => by cases h⟩
  exact (hstart.runs (runs_recording h)).2 call hcall

theorem Sees.recording (h : w.Sees g store) (calls : List Call) :
    w.recording.Sees g (store, calls) := by
  refine ⟨h.keys, fun names name => ?_⟩
  have hstore : ∀ store calls, (w.recording.afterReads (store, calls) names).1 =
      w.afterReads store names := by
    induction names with
    | nil => intro store calls; rfl
    | cons name names ih => intro store calls; exact ih _ _
  change (w.retrieve name (w.recording.afterReads (store, calls) names).1).1 = _
  rw [hstore]
  exact h.answers names name

end ContentAddressed.Walker
