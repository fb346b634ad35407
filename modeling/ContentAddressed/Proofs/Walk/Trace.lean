import ContentAddressed.Proofs.Walk.Step

/-!
# The links that a walk follows, in order

Without a limit a walk follows every link that it meets, and what it returns under a name is what
the first link to that name read. The links to it that are followed later are passed over.
-/

namespace ContentAddressed.Walker

variable {σ : Type} {w : Walker σ} {root : Link} {s s' : WalkState} {store store' : σ}
  {ls done : List Link} {r : WalkResult}

/-- From one state and store to another by following links, the first one first. -/
inductive Trace (w : Walker σ) : WalkState → σ → List Link → WalkState → σ → Prop
  | nil {s : WalkState} {store : σ} : Trace w s store [] s store
  | cons {l : Link} {depth : Nat} {rest : List (Link × Nat)} {tooDeep : List String}
    {visits : List ContentAddressed.Visit} {ls : List Link} {s s' : WalkState}
    {store store' store'' : σ}
    (hl : w.follow l depth ⟨rest, tooDeep, visits⟩ store = (.ok s, store'))
    (hs : Trace w s store' ls s' store'') :
    Trace w ⟨(l, depth) :: rest, tooDeep, visits⟩ store (l :: ls) s' store''

/-- The links that a walk from `root` follows to its result, in order. -/
def Traces (w : Walker σ) (root : Link) (store : σ) (ls : List Link) (r : WalkResult)
    (store' : σ) : Prop :=
  ∃ s, w.Trace (.start root) store ls s store' ∧ s.pending = [] ∧ w.finish s = .ok r

theorem Runs.exists_trace (h : w.Runs s store (.ok r, store')) :
    ∃ ls s', w.Trace s store ls s' store' ∧ s'.pending = [] ∧ w.finish s' = .ok r := by
  generalize hout : (Except.ok r, store') = out at h
  induction h with
  | done tooDeep visits store =>
    obtain ⟨hfinish, rfl⟩ := Prod.mk.inj hout
    exact ⟨[], _, .nil, rfl, hfinish.symm⟩
  | fail => cases hout
  | step hl _ ih =>
    obtain ⟨ls, s', htrace, hend⟩ := ih hout
    exact ⟨_ :: ls, s', .cons hl htrace, hend⟩

theorem exists_traces {hs : w.Halts (.start root) store}
    (h : w.fetch root store hs = (.ok r, store')) : ∃ ls, w.Traces root store ls r store' := by
  have hruns := runs_run hs
  rw [← fetch, h] at hruns
  exact hruns.exists_trace

/-- A link was met exactly if it was followed or is pending. -/
def Accounts (root : Link) (done : List Link) (s : WalkState) : Prop :=
  ∀ l, s.result.Meets root l ↔ l ∈ done ∨ l ∈ s.pending.map Prod.fst

theorem accounts_start (root : Link) : Accounts root [] (.start root) := by
  intro l
  simp [WalkResult.Meets, WalkState.start, WalkState.result]

theorem Trace.accounts (hw : w.limit = none) (h : w.Trace s store ls s' store')
    (hs : Accounts root done s) : Accounts root (done ++ ls) s' := by
  induction h generalizing done with
  | nil => simpa using hs
  | @cons l depth rest tooDeep visits ls s s' store _ _ hl _ ih =>
    rw [List.append_cons]
    refine ih fun k => ?_
    have hk := hs k
    rcases follow_cases hw hl with ⟨-, hout, -⟩ | ⟨-, ⟨e, -, hout⟩ | ⟨f, -, hout⟩⟩
    · cases hout
      refine hk.trans ?_
      simp [or_assoc]
    · cases hout
    · cases hout
      rw [WalkState.result_cons ((l, depth) :: rest) _ tooDeep, WalkResult.meets_record, hk]
      simp only [List.map_cons, List.map_append, Found.map_fst_children, List.mem_cons,
        List.mem_append, List.not_mem_nil, or_false]
      tauto

theorem Trace.entries (hw : w.limit = none) (h : w.Trace s store ls s' store') :
    ∀ e ∈ s'.result.entries, e ∈ s.result.entries ∨ e.1 ∉ s.result.names ∧
      ∃ l, ls.find? (·.target == e.1) = some l ∧
        ∃ store₁ store₂, w.read l store₁ = (.ok e.2, store₂) := by
  induction h with
  | nil => exact fun e he => Or.inl he
  | @cons l depth rest tooDeep visits ls s s' store _ _ hl _ ih =>
    intro e he
    rcases follow_cases hw hl with ⟨hseen, hout, -⟩ | ⟨hnew, ⟨e, -, hout⟩ | ⟨f, hread, hout⟩⟩
    · cases hout
      rcases ih e he with hold | ⟨hnot, k, hfind, hk⟩
      · exact Or.inl hold
      · have hl : l.target ≠ e.1 := fun hname => hnot (hname ▸ WalkResult.contains_iff.mp hseen)
        exact Or.inr ⟨hnot, k, by rwa [List.find?_cons_of_neg (by simpa using hl)], hk⟩
    · cases hout
    · cases hout
      have hih := ih e he
      rw [WalkState.result_cons ((l, depth) :: rest) _ tooDeep] at hih
      rcases hih with hold | ⟨hnot, k, hfind, hk⟩
      · rcases List.mem_append.mp hold with hold | hentered
        · exact Or.inl hold
        · obtain rfl := List.mem_singleton.mp hentered
          exact Or.inr ⟨fun hmem => hnew (WalkResult.contains_iff.mpr hmem), l, by simp, _, _,
            hread⟩
      · rw [WalkResult.names_record, List.mem_append, List.mem_singleton, not_or] at hnot
        have hl : l.target ≠ e.1 := fun hname => hnot.2 hname.symm
        exact Or.inr ⟨hnot.1, k, by rwa [List.find?_cons_of_neg (by simpa using hl)], hk⟩

/-- A walk follows the links that it meets, and finds under a name what the first of them that
targets it read. -/
theorem Traces.first_reads (hw : w.limit = none) (h : w.Traces root store ls r store') :
    (∀ l, l ∈ ls ↔ r.Meets root l) ∧ ∀ name f, (name, f) ∈ r.entries →
      ∃ l, ls.find? (·.target == name) = some l ∧
        ∃ store₁ store₂, w.read l store₁ = (.ok f, store₂) := by
  obtain ⟨s, htrace, hpending, hfinish⟩ := h
  obtain rfl : s.result = r := by simpa [finish, hw] using hfinish
  constructor
  · intro l
    have hl := htrace.accounts hw (accounts_start root) l
    simpa [hpending] using hl.symm
  · intro name f hmem
    rcases htrace.entries hw _ hmem with hold | ⟨-, hfirst⟩
    · cases hold
    · exact hfirst

end ContentAddressed.Walker
