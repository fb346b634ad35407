import ContentAddressed.Proofs.Walk.Step

/-!
# The recursive walk

A visit follows one link and, before it comes back, all links below it; what was found so far is
handed on from one link to the next. Without a limit, following links from a stack comes to the
same.
-/

namespace ContentAddressed.Walker

variable {σ : Type}

mutual

/-- Visiting a link: nothing for a name that was found before; else its target is read and recorded,
and the links of it are visited. -/
inductive Visit (w : Walker σ) : Link → WalkResult → σ → Outcome σ WalkResult → Prop
  | known {l : Link} {r : WalkResult} {store : σ} (hl : r.contains l.target) :
    Visit w l r store (.ok r, store)
  | fail {l : Link} {r : WalkResult} {store store' : σ} {e : Error} (hl : ¬ r.contains l.target)
    (hread : w.read l store = (.error e, store')) : Visit w l r store (.error e, store')
  | enter {l : Link} {r : WalkResult} {store store' : σ} {f : Found} {out : Outcome σ WalkResult}
    (hl : ¬ r.contains l.target) (hread : w.read l store = (.ok f, store'))
    (hbelow : VisitEach w f.links (r.record l.target f) store' out) : Visit w l r store out

inductive VisitEach (w : Walker σ) : List Link → WalkResult → σ → Outcome σ WalkResult → Prop
  | nil {r : WalkResult} {store : σ} : VisitEach w [] r store (.ok r, store)
  | fail {l : Link} {ls : List Link} {r : WalkResult} {store store' : σ} {e : Error}
    (hl : Visit w l r store (.error e, store')) : VisitEach w (l :: ls) r store (.error e, store')
  | cons {l : Link} {ls : List Link} {r r' : WalkResult} {store store' : σ}
    {out : Outcome σ WalkResult} (hl : Visit w l r store (.ok r', store'))
    (hls : VisitEach w ls r' store' out) : VisitEach w (l :: ls) r store out

end

variable {w : Walker σ}

/-- Links that are visited in front of others: the others come after them, unless they fail. -/
theorem VisitEach.split {ls ks : List Link} {r : WalkResult} {store : σ}
    {out : Outcome σ WalkResult} (h : w.VisitEach (ls ++ ks) r store out) :
    (∃ e store', out = (.error e, store') ∧ w.VisitEach ls r store out) ∨
      ∃ r' store', w.VisitEach ls r store (.ok r', store') ∧ w.VisitEach ks r' store' out := by
  induction ls generalizing r store with
  | nil => exact Or.inr ⟨r, store, VisitEach.nil, h⟩
  | cons l ls ih =>
    cases h with
    | fail hl => exact Or.inl ⟨_, _, rfl, VisitEach.fail hl⟩
    | cons hl hls =>
      rcases ih hls with ⟨e, store', rfl, hfail⟩ | ⟨r', store', hfirst, hrest⟩
      · exact Or.inl ⟨e, store', rfl, VisitEach.cons hl hfail⟩
      · exact Or.inr ⟨r', store', VisitEach.cons hl hfirst, hrest⟩

theorem VisitEach.enter {l : Link} {ls : List Link} {r : WalkResult} {store store' : σ} {f : Found}
    {out : Outcome σ WalkResult} (hl : ¬ r.contains l.target)
    (hread : w.read l store = (.ok f, store'))
    (h : w.VisitEach (f.links ++ ls) (r.record l.target f) store' out) :
    w.VisitEach (l :: ls) r store out := by
  rcases h.split with ⟨e, store'', rfl, hfail⟩ | ⟨r', store'', hbelow, hls⟩
  · exact VisitEach.fail (Visit.enter hl hread hfail)
  · exact VisitEach.cons (Visit.enter hl hread hbelow) hls

/-- The steps of a walk do what visiting the pending links in order does. -/
theorem Runs.visitEach (hw : w.limit = none) {s : WalkState} {store : σ}
    {out : Outcome σ WalkResult} (h : w.Runs s store out) :
    w.VisitEach (s.pending.map Prod.fst) s.result store out := by
  induction h with
  | done tooDeep visits store =>
    simp only [finish, hw]
    exact VisitEach.nil
  | @fail l depth rest tooDeep visits store store' e hl =>
    rcases follow_cases hw hl with ⟨-, hs, -⟩ | ⟨hnew, ⟨e, hread, hs⟩ | ⟨f, -, hs⟩⟩
    · cases hs
    · cases hs
      exact VisitEach.fail (Visit.fail hnew hread)
    · cases hs
  | @step l depth rest tooDeep visits store store' s out hl _ ih =>
    rcases follow_cases hw hl with ⟨hseen, hs, rfl⟩ | ⟨hnew, ⟨e, -, hs⟩ | ⟨f, hread, hs⟩⟩
    · cases hs
      exact VisitEach.cons (Visit.known hseen) ih
    · cases hs
    · cases hs
      rw [List.map_append, Found.map_fst_children,
        WalkState.result_cons ((l, depth) :: rest) _ tooDeep] at ih
      exact VisitEach.enter hnew hread ih

/-- How a walk goes on when its first links are followed: it fails as they do, or has `rest` to
follow. -/
def Resumes (w : Walker σ) (s : WalkState) (rest : List (Link × Nat)) (store : σ) :
    Outcome σ WalkResult → Prop
  | (.error e, store') => w.Runs s store (.error e, store')
  | (.ok r, store') =>
    ∃ s' : WalkState, s'.pending = rest ∧ s'.result = r ∧
      ∀ out, w.Runs s' store' out → w.Runs s store out

/-- Every walk with `ls` in front of its pending links resumes with their outcome. -/
def Leads (w : Walker σ) (ls : List Link) (r : WalkResult) (store : σ)
    (out : Outcome σ WalkResult) : Prop :=
  ∀ (s : WalkState) (depth : Nat) (rest : List (Link × Nat)),
    s.pending = ls.map (fun l => (l, depth)) ++ rest → s.result = r → w.Resumes s rest store out

theorem Resumes.trans {s s' : WalkState} {rest : List (Link × Nat)} {store store' : σ}
    {out : Outcome σ WalkResult} (h : ∀ out, w.Runs s' store' out → w.Runs s store out)
    (hs : w.Resumes s' rest store' out) : w.Resumes s rest store out := by
  rcases out with ⟨e | r, store''⟩
  · exact h _ hs
  · obtain ⟨t, hpending, hresult, hrun⟩ := hs
    exact ⟨t, hpending, hresult, fun out hout => h out (hrun out hout)⟩

theorem leads_known (hw : w.limit = none) {l : Link} {r : WalkResult} {store : σ}
    (hl : r.contains l.target) : w.Leads [l] r store (.ok r, store) := by
  rintro ⟨pending, tooDeep, visits⟩ depth rest hpending rfl
  obtain rfl : pending = (l, depth) :: rest := hpending
  refine ⟨⟨rest, tooDeep, visits⟩, rfl, rfl, fun out hout => Runs.step ?_ hout⟩
  rw [follow_eq hw]
  exact if_pos hl

theorem leads_fail (hw : w.limit = none) {l : Link} {r : WalkResult} {store store' : σ} {e : Error}
    (hl : ¬ r.contains l.target) (hread : w.read l store = (.error e, store')) :
    w.Leads [l] r store (.error e, store') := by
  rintro ⟨pending, tooDeep, visits⟩ depth rest hpending rfl
  obtain rfl : pending = (l, depth) :: rest := hpending
  refine Runs.fail ?_
  rw [follow_eq hw, enter, hread]
  exact if_neg hl

theorem leads_enter (hw : w.limit = none) {l : Link} {r : WalkResult} {store store' : σ} {f : Found}
    {out : Outcome σ WalkResult} (hl : ¬ r.contains l.target)
    (hread : w.read l store = (.ok f, store'))
    (hbelow : w.Leads f.links (r.record l.target f) store' out) : w.Leads [l] r store out := by
  rintro ⟨pending, tooDeep, visits⟩ depth rest hpending rfl
  obtain rfl : pending = (l, depth) :: rest := hpending
  refine Resumes.trans (fun out hout => Runs.step ?_ hout)
    (hbelow ⟨f.children (depth + 1) ++ rest, tooDeep, ⟨l.target, depth, f⟩ :: visits⟩ (depth + 1)
      rest rfl (WalkState.result_cons _ _ _ _ _ _))
  rw [follow_eq hw, enter, hread]
  exact if_neg hl

theorem leads_cons {l : Link} {ls : List Link} {r r' : WalkResult} {store store' : σ}
    {out : Outcome σ WalkResult} (h : w.Leads [l] r store (.ok r', store'))
    (hs : w.Leads ls r' store' out) : w.Leads (l :: ls) r store out := by
  intro s depth rest hpending hresult
  obtain ⟨t, ht, hr, hrun⟩ := h s depth (ls.map (fun l => (l, depth)) ++ rest) hpending hresult
  exact Resumes.trans hrun (hs t depth rest ht hr)

theorem VisitEach.leads (hw : w.limit = none) {ls : List Link} {r : WalkResult} {store : σ}
    {out : Outcome σ WalkResult} (h : w.VisitEach ls r store out) : w.Leads ls r store out := by
  refine @VisitEach.rec σ w (fun l r store out _ => w.Leads [l] r store out)
    (fun ls r store out _ => w.Leads ls r store out) ?_ ?_ ?_ ?_ ?_ ?_ ls r store out h
  · intro l r store hl
    exact leads_known hw hl
  · intro l r store store' e hl hread
    exact leads_fail hw hl hread
  · intro l r store store' f out hl hread _ hbelow
    exact leads_enter hw hl hread hbelow
  · intro r store s depth rest hpending hresult
    exact ⟨s, hpending, hresult, fun _ => id⟩
  · intro l ls r store store' e _ hfail s depth rest hpending hresult
    exact hfail s depth (ls.map (fun l => (l, depth)) ++ rest) hpending hresult
  · intro l ls r r' store store' out _ _ hl hls
    exact leads_cons hl hls

theorem visitEach_singleton_iff {l : Link} {r : WalkResult} {store : σ}
    {out : Outcome σ WalkResult} : w.VisitEach [l] r store out ↔ w.Visit l r store out := by
  constructor
  · intro h
    cases h with
    | fail hl => exact hl
    | cons hl hls =>
      cases hls
      exact hl
  · intro h
    rcases out with ⟨e | r', store'⟩
    · exact VisitEach.fail h
    · exact VisitEach.cons h VisitEach.nil

/-- Visiting a link comes to an end exactly if following links from a stack does, with the same
outcome. -/
theorem visit_iff_fetch (hw : w.limit = none) {root : Link} {store : σ}
    {out : Outcome σ WalkResult} :
    w.Visit root {} store out ↔
      ∃ h : w.Halts (.start root) store, w.fetch root store h = out := by
  rw [← visitEach_singleton_iff]
  constructor
  · intro h
    have hlead := h.leads hw (.start root) 0 [] rfl rfl
    have hruns : w.Runs (.start root) store out := by
      rcases out with ⟨e | r, store'⟩
      · exact hlead
      · obtain ⟨⟨pending, tooDeep, visits⟩, hpending, rfl, hrest⟩ := hlead
        obtain rfl : pending = [] := hpending
        have hdone := Runs.done (w := w) tooDeep visits store'
        simp only [finish, hw] at hdone
        exact hrest _ hdone
    exact ⟨hruns.halts, hruns.run_eq hruns.halts⟩
  · rintro ⟨h, rfl⟩
    exact (runs_run h).visitEach hw

end ContentAddressed.Walker
