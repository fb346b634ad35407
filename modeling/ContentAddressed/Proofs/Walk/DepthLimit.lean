import ContentAddressed.Proofs.Block.Frame
import ContentAddressed.Proofs.Store.Local
import ContentAddressed.Proofs.Walk.Distance

/-!
# What a limited walk returns

Where a limited walk ends, every way up to the limit is covered. So its outcome can be told from the
distances alone, and it is that of the walk without a limit wherever no name is further away.
-/

namespace ContentAddressed

namespace LinkGraph

/-- Whether every name up to a distance is intact. -/
def IntactWithin (g : LinkGraph) (limit : Nat) : Prop :=
  ∀ name n, g.Distance name n → n ≤ limit → g.Intact name

theorem read_ne_depthExceeded {g : LinkGraph} {limit : Nat}
    (hstore : ∀ name, g.answer name ≠ .error (.depthExceeded limit)) (l : Link) :
    g.read l ≠ .error (.depthExceeded limit) := by
  intro h
  rw [read] at h
  split at h
  · next hanswer =>
    cases h
    exact hstore _ hanswer
  · split at h
    · split at h <;> cases h
    · cases h

end LinkGraph

namespace Walker

variable {σ : Type} {w : Walker σ} {g : LinkGraph} {l k : Link} {n depth limit : Nat}
  {rest : List (Link × Nat)} {tooDeep : List String} {visits : List ContentAddressed.Visit}
  {store store' : σ} {s : WalkState} {r r' : WalkResult} {out : Outcome σ WalkResult}

theorem isBeyond_iff (hw : w.limit = some limit) : w.isBeyond depth ↔ limit < depth := by
  simp [isBeyond, hw]

section End

/-- A way within the limit is covered once nothing is pending: by induction on the way, each of its
names is reached at no greater depth. -/
theorem Covers.exists_visit (hg : g.Uniform) (htracks : Tracks w g ⟨[], tooDeep, visits⟩)
    (h : Covers w g ⟨[], tooDeep, visits⟩) (hl : g.Way n l) (hn : ¬ w.isBeyond n) :
    ∃ v ∈ visits, v.name = l.target ∧ v.depth ≤ n := by
  have hvisited {k : Link} {d : Nat} (hd : ¬ w.isBeyond d)
      (hk : w.Handled ⟨[], tooDeep, visits⟩ k d) :
      ∃ v ∈ visits, v.name = k.target ∧ v.depth ≤ d := by
    rcases hk with ⟨d', -, hpending⟩ | hvisit | ⟨hb, -⟩
    · cases hpending
    · exact hvisit
    · exact absurd hb hd
  induction hl with
  | root => exact hvisited hn h.root
  | @step n l k b hl hb hk ih =>
    obtain ⟨v, hv, hname, hdepth⟩ := ih fun hbeyond => hn (isBeyond_mono (Nat.le_succ n) hbeyond)
    have hmem : k ∈ v.found.links := (htracks.finds v hv).mem_links hg hl hname.symm hb hk
    exact hvisited hn ((h.children v hv k hmem).mono (Nat.succ_le_succ hdepth))

/-- If every name that was noted as too deep is reached as well, all ways are covered. -/
theorem Covers.contains (hg : g.Uniform) (htracks : Tracks w g ⟨[], tooDeep, visits⟩)
    (h : Covers w g ⟨[], tooDeep, visits⟩)
    (hall : ∀ name ∈ tooDeep, ∃ v ∈ visits, v.name = name) (hl : g.Way n l) :
    ∃ v ∈ visits, v.name = l.target := by
  have hvisited {k : Link} {d : Nat} (hk : w.Handled ⟨[], tooDeep, visits⟩ k d) :
      ∃ v ∈ visits, v.name = k.target := by
    rcases hk with ⟨d', -, hpending⟩ | ⟨v, hv, hname, -⟩ | ⟨-, hdeep⟩
    · cases hpending
    · exact ⟨v, hv, hname⟩
    · exact hall _ hdeep
  induction hl with
  | root => exact hvisited h.root
  | @step n l k b hl hb hk ih =>
    obtain ⟨v, hv, hname⟩ := ih
    exact hvisited (h.children v hv k ((htracks.finds v hv).mem_links hg hl hname.symm hb hk))

variable (hw : w.limit = some limit) (hg : g.Uniform)
include hw hg

theorem intactWithin_of_covers (htracks : Tracks w g ⟨[], tooDeep, visits⟩)
    (h : Covers w g ⟨[], tooDeep, visits⟩) : g.IntactWithin limit := by
  intro name n hdist hn
  obtain ⟨l, hl, rfl⟩ := hdist.1
  have hin : ¬ w.isBeyond n := by rw [isBeyond_iff hw]; omega
  obtain ⟨v, hv, hname, -⟩ := h.exists_visit hg htracks hl hin
  exact hname ▸ (htracks.finds v hv).intact

/-- What was noted as too deep is reached another way exactly if nothing is beyond the limit. -/
theorem all_tooDeep_iff (htracks : Tracks w g ⟨[], tooDeep, visits⟩)
    (h : Covers w g ⟨[], tooDeep, visits⟩) :
    (∀ name ∈ tooDeep, ∃ v ∈ visits, v.name = name) ↔
      ∀ name n, g.Distance name n → n ≤ limit := by
  constructor
  · intro hall name n hdist
    obtain ⟨l, hl, rfl⟩ := hdist.1
    obtain ⟨v, hv, hname⟩ := h.contains hg htracks hall hl
    obtain ⟨k, hk, htarget⟩ := htracks.way v hv
    have hle := hdist.le hk (htarget.trans hname)
    have hin := htracks.within v hv
    rw [isBeyond_iff hw] at hin
    omega
  · intro hnear name hname
    obtain ⟨n, l, hl, rfl⟩ := htracks.tooDeep name hname
    obtain ⟨m, -, hdist⟩ := hl.exists_distance
    obtain ⟨k, hk, htarget⟩ := hdist.1
    have hin : ¬ w.isBeyond m := by
      rw [isBeyond_iff hw]
      exact Nat.not_lt.mpr (hnear _ m hdist)
    obtain ⟨v, hv, hvname, -⟩ := h.exists_visit hg htracks hk hin
    exact ⟨v, hv, hvname.trans htarget⟩

end End

section Outcome

/-- The invariants of a limited walk together. -/
structure Surveys (w : Walker σ) (g : LinkGraph) (s : WalkState) (store : σ) : Prop where
  tracks : Tracks w g s
  covers : Covers w g s
  sees : w.Sees g store

theorem keeps_tracks (hg : g.Uniform) : w.Keeps fun s store => Tracks w g s ∧ w.Sees g store :=
  fun _ _ _ _ _ _ _ _ hs h => hs.1.follow hg hs.2 h

theorem keeps_surveys (hw : w.limit = some limit) (hg : g.Uniform) : w.Keeps (Surveys w g) := by
  intro l depth rest tooDeep visits store store' s hs h
  obtain ⟨htracks, hsees⟩ := hs.tracks.follow hg hs.sees h
  exact ⟨htracks, hs.covers.follow hw h, hsees⟩

/-- A link that is followed within the limit has a target at no greater distance. -/
theorem Tracks.exists_distance (h : Tracks w g ⟨(l, depth) :: rest, tooDeep, visits⟩) :
    ∃ m ≤ depth, g.Distance l.target m :=
  (h.pending (l, depth) List.mem_cons_self).exists_distance

variable (hw : w.limit = some limit) (hg : g.Uniform)
include hw

theorem finish_eq (tooDeep : List String) (visits : List ContentAddressed.Visit) :
    w.finish ⟨[], tooDeep, visits⟩ =
      if ∀ name ∈ tooDeep, ∃ v ∈ visits, v.name = name then
        .ok (WalkState.result ⟨[], tooDeep, visits⟩)
      else .error (.depthExceeded limit) := by
  have hall : (tooDeep.all fun name => (WalkState.result ⟨[], tooDeep, visits⟩).contains name) ↔
      ∀ name ∈ tooDeep, ∃ v ∈ visits, v.name = name := by
    simp only [List.all_eq_true, WalkState.contains_result]
  simp only [finish, hw, hall]

/-- The three ways in which a limited walk ends: at a name that is not intact, with all ways
covered, or with a name left beyond the limit. -/
theorem stops_cases (hg : g.Uniform) (h : w.Stops (Surveys w g) out) :
    (¬ g.IntactWithin limit ∧ ∃ l e, g.read l = .error e ∧ out.1 = .error e) ∨
      (g.IntactWithin limit ∧ (∀ name n, g.Distance name n → n ≤ limit) ∧
        ∃ s, Tracks w g s ∧ s.names.Nodup ∧ (∀ n l, g.Way n l → s.result.contains l.target) ∧
          out.1 = .ok s.result) ∨
      (g.IntactWithin limit ∧ ¬ (∀ name n, g.Distance name n → n ≤ limit) ∧
        out.1 = .error (.depthExceeded limit)) := by
  cases h with
  | @fail l depth rest tooDeep visits store store' e hI hd hread =>
    obtain ⟨hread', -⟩ := hI.sees.of_read hread
    refine Or.inl ⟨fun hintact => ?_, l, e, hread', rfl⟩
    obtain ⟨m, hm, hdist⟩ := hI.tracks.exists_distance
    rw [isBeyond_iff hw, Nat.not_lt] at hd
    obtain ⟨f, hf⟩ := LinkGraph.exists_read_iff.mpr (hintact _ m hdist (Nat.le_trans hm hd))
    rw [hread'] at hf
    cases hf
  | @done tooDeep visits store hI =>
    have hintact := intactWithin_of_covers hw hg hI.tracks hI.covers
    have hdeep := all_tooDeep_iff hw hg hI.tracks hI.covers
    by_cases hall : ∀ name ∈ tooDeep, ∃ v ∈ visits, v.name = name
    · refine Or.inr (Or.inl ⟨hintact, hdeep.mp hall, _, hI.tracks, hI.covers.nodup, ?_, ?_⟩)
      · intro n l hl
        exact WalkState.contains_result.mpr (hI.covers.contains hg hI.tracks hall hl)
      · exact (finish_eq hw tooDeep visits).trans (if_pos hall)
    · refine Or.inr (Or.inr ⟨hintact, fun hnear => hall (hdeep.mpr hnear), ?_⟩)
      exact (finish_eq hw tooDeep visits).trans (if_neg hall)

end Outcome

section Result

/-- A result that holds exactly the names with a way, each with what is found under it. -/
def Reports (g : LinkGraph) (r : WalkResult) : Prop :=
  (∀ name, r.contains name ↔ ∃ n, g.Distance name n) ∧
    ∀ name f, r.find? name = some f → g.Finds name f

theorem reports_of_tracks (h : Tracks w g s)
    (hall : ∀ n l, g.Way n l → s.result.contains l.target) : Reports g s.result := by
  refine ⟨fun name => ⟨fun hname => ?_, ?_⟩, fun name f hf => ?_⟩
  · obtain ⟨v, hv, rfl⟩ := WalkState.contains_result.mp hname
    obtain ⟨l, hl, htarget⟩ := h.way v hv
    obtain ⟨m, -, hdist⟩ := hl.exists_distance
    exact ⟨m, htarget ▸ hdist⟩
  · rintro ⟨n, hdist⟩
    obtain ⟨l, hl, rfl⟩ := hdist.1
    exact hall n l hl
  · obtain ⟨v, hv, rfl, rfl⟩ := WalkState.exists_of_find?_result hf
    exact h.finds v hv

theorem Reports.same (hg : g.Uniform) (h : Reports g r) (h' : Reports g r') (name : String) :
    Option.Rel Found.Same (r.find? name) (r'.find? name) := by
  have hboth : (r.find? name).isSome = (r'.find? name).isSome :=
    Bool.eq_iff_iff.mpr ((h.1 name).trans (h'.1 name).symm)
  cases hf : r.find? name with
  | none =>
    rw [hf] at hboth
    have hnone : r'.find? name = none := by simpa using hboth.symm
    rw [hnone]
    exact .none
  | some f =>
    rw [hf] at hboth
    obtain ⟨f', hf'⟩ := Option.isSome_iff_exists.mp hboth.symm
    rw [hf']
    exact .some ((h.2 name f hf).same hg (h'.2 name f' hf'))

end Result

section Limit

variable (hw : w.limit = some limit) (hg : g.Uniform)
include hw hg

theorem exists_ok_iff (h : w.Stops (Surveys w g) out) :
    (∃ r, out.1 = .ok r) ↔ g.IntactWithin limit ∧ ∀ name n, g.Distance name n → n ≤ limit := by
  rcases stops_cases hw hg h with ⟨hnot, l, e, -, hout⟩ | ⟨hintact, hnear, s, -, -, -, hout⟩ |
    ⟨-, hfar, hout⟩
  · simp [hout, hnot]
  · exact ⟨fun _ => ⟨hintact, hnear⟩, fun _ => ⟨s.result, hout⟩⟩
  · simp [hout, hfar]

theorem reports_of_ok (h : w.Stops (Surveys w g) out) (hr : out.1 = .ok r) :
    r.names.Nodup ∧ Reports g r := by
  rcases stops_cases hw hg h with ⟨-, l, e, -, hout⟩ | ⟨-, -, s, htracks, hnodup, hall, hout⟩ |
    ⟨-, -, hout⟩
  · cases hout.symm.trans hr
  · obtain rfl := Except.ok.inj (hout.symm.trans hr)
    refine ⟨?_, reports_of_tracks htracks hall⟩
    have hnames : s.result.names = s.names.reverse := by
      simp [WalkState.result, WalkResult.names, WalkState.names]
    rw [hnames]
    exact List.nodup_reverse.mpr hnodup
  · cases hout.symm.trans hr

/-- Beyond the limit there is a name one step further, since distances leave no gap. -/
theorem depthExceeded_iff (h : w.Stops (Surveys w g) out)
    (hstore : ∀ name, g.answer name ≠ .error (.depthExceeded limit)) :
    out.1 = .error (.depthExceeded limit) ↔
      g.IntactWithin limit ∧ ∃ name, g.Distance name (limit + 1) := by
  rcases stops_cases hw hg h with ⟨hnot, l, e, hread, hout⟩ | ⟨-, hnear, s, -, -, -, hout⟩ |
    ⟨hintact, hfar, hout⟩
  · have he : e ≠ .depthExceeded limit := by
      rintro rfl
      exact LinkGraph.read_ne_depthExceeded hstore l hread
    simp [hout, hnot, he]
  · rw [hout]
    constructor
    · intro h
      cases h
    · rintro ⟨-, name, hdist⟩
      exact absurd (hnear name _ hdist) (Nat.not_succ_le_self limit)
  · refine ⟨fun _ => ⟨hintact, ?_⟩, fun _ => hout⟩
    push Not at hfar
    obtain ⟨name, n, hdist, hlt⟩ := hfar
    exact hdist.exists_of_le hg hlt

end Limit

section Unlimited

def unlimited (w : Walker σ) : Walker σ := { w with limit := none }

theorem halts_of_names (hg : g.Uniform) {names : List String}
    (hnames : ∀ n l, g.Way n l → l.target ∈ names) (hsees : w.Sees g store) :
    w.Halts (.start g.root) store :=
  halts_of_decreasing (I := fun s store => Tracks w g s ∧ w.Sees g store)
    (fun _ asked => unasked names asked)
    (fun hI hl => hI.1.follow hg hI.2 (follows_iff.mpr hl))
    (fun hI hnew _ => unasked_cons_lt
      (hnames _ _ (hI.1.pending _ List.mem_cons_self)) hnew)
    _ _ List.nodup_nil ⟨tracks_start w g, hsees⟩

/-- A walk without a limit that succeeds reports everything that there is a way to. -/
theorem reports_of_fetch (hw : w.limit = none) (hg : g.Uniform) (hsees : w.Sees g store)
    {h : w.Halts (.start g.root) store} (hr : w.fetch g.root store h = (.ok r, store')) :
    Reports g r := by
  have hstops := fetch_stops (keeps_tracks hg) ⟨tracks_start w g, hsees⟩ h
  rw [hr] at hstops
  obtain ⟨tooDeep, visits, ⟨htracks, -⟩, hfinish⟩ := hstops.exists_of_ok
  obtain ⟨rfl, -⟩ := eq_result_of_finish hfinish
  obtain ⟨-, hmeets⟩ := explored_of_fetch hw hr
  refine reports_of_tracks htracks fun n l hl => ?_
  induction hl with
  | root => exact hmeets g.root (Or.inl rfl)
  | @step n l k b hl hb hk ih =>
    obtain ⟨f, hf⟩ := Option.isSome_iff_exists.mp ih
    obtain ⟨v, hv, hname, rfl⟩ := WalkState.exists_of_find?_result hf
    have hmem := (htracks.finds v hv).mem_links hg hl hname.symm hb hk
    exact hmeets k (Or.inr ⟨(l.target, v.found), mem_of_lookup hf, hmem⟩)

/-- If everything that there is a way to is intact, a walk without a limit reports all of it. -/
theorem reports_of_unlimited (hw : w.limit = none) (hg : g.Uniform) (hsees : w.Sees g store)
    (hintact : ∀ n l, g.Way n l → g.Intact l.target) (h : w.Halts (.start g.root) store) :
    ∃ r, (w.fetch g.root store h).1 = .ok r ∧ Reports g r := by
  have hstops := fetch_stops (keeps_tracks hg) ⟨tracks_start w g, hsees⟩ h
  cases hout : w.fetch g.root store h with
  | mk out store' =>
  rw [hout] at hstops
  cases hstops with
  | @fail l depth rest tooDeep visits store _ e hI hd hread =>
    obtain ⟨hread', -⟩ := hI.2.of_read hread
    obtain ⟨f, hf⟩ := LinkGraph.exists_read_iff.mpr
      (hintact _ l (hI.1.pending (l, depth) List.mem_cons_self))
    rw [hread'] at hf
    cases hf
  | @done tooDeep visits store hI =>
    have hfinish : w.finish ⟨[], tooDeep, visits⟩ =
        .ok (WalkState.result ⟨[], tooDeep, visits⟩) := by
      simp only [finish, hw]
    rw [hfinish] at hout
    exact ⟨_, hfinish, reports_of_fetch hw hg hsees hout⟩

end Unlimited

section Main

/-- A limited walk asks only for names within the limit: each of them was the target of a link that
came with a way of its depth. -/
theorem calls_within (hw : w.limit = some limit) (hg : g.Uniform) (hsees : w.Sees g store)
    (h : w.Halts (.start g.root) store) :
    ∀ call ∈ w.calls g.root store h, ∃ n, g.Distance call.1 n ∧ n ≤ limit := by
  have hw' : w.recording.limit = some limit := hw
  have hcall {l : Link} {depth : Nat} {p p' : σ × List Call} {out : Except Error Found}
      (hl : ∃ m ≤ depth, g.Distance l.target m) (hd : ¬ w.recording.isBeyond depth)
      (hp : ∀ call ∈ p.2, ∃ n, g.Distance call.1 n ∧ n ≤ limit)
      (hread : w.recording.read l p = (out, p')) :
      ∀ call ∈ p'.2, ∃ n, g.Distance call.1 n ∧ n ≤ limit := by
    rw [isBeyond_iff hw', Nat.not_lt] at hd
    obtain ⟨m, hm, hdist⟩ := hl
    rw [(recording_read_iff.mp hread).2]
    exact List.forall_mem_cons.mpr ⟨⟨m, hdist, Nat.le_trans hm hd⟩, hp⟩
  have hkeeps : w.recording.Keeps fun s p => (Tracks w.recording g s ∧ w.recording.Sees g p) ∧
      ∀ call ∈ p.2, ∃ n, g.Distance call.1 n ∧ n ≤ limit := by
    intro l depth rest tooDeep visits p p' s hs hfollows
    refine ⟨keeps_tracks hg hs.1 hfollows, ?_⟩
    cases hfollows with
    | beyond hd => exact hs.2
    | known hd hv hle => exact hs.2
    | enter hd hv hread => exact hcall hs.1.1.exists_distance hd hs.2 hread
    | shorten hd hv hlimit hlt => exact hs.2
  have hstops := fetch_stops hkeeps
    ⟨⟨tracks_start w.recording g, hsees.recording []⟩, fun _ hcall => by cases hcall⟩
    (h.recording [])
  rw [calls]
  cases hout : w.recording.fetch g.root (store, []) (h.recording []) with
  | mk out p =>
  rw [hout] at hstops
  cases hstops with
  | done hI => exact hI.2
  | fail hI hd hread => exact hcall hI.1.1.exists_distance hd hI.2 hread

/-- A limited walk ends over every store whose answers open alike by every link to a name. It
succeeds exactly if the names up to the limit are intact and none is further away, and then it finds
what the walk without a limit finds, which is everything reachable. It reports the limit as exceeded
exactly if the names up to it are intact and there is one more link to go, unless the store itself
raises that failure. And it never asks for a name beyond the limit. -/
theorem fetch_by_distance (hw : w.limit = some limit) (hsees : w.Sees g store) (hg : g.Uniform) :
    ∃ h : w.Halts (.start g.root) store,
      ((∃ r, (w.fetch g.root store h).1 = .ok r) ↔
        g.IntactWithin limit ∧ ∀ name n, g.Distance name n → n ≤ limit) ∧
      (∀ r, (w.fetch g.root store h).1 = .ok r →
        r.names.Nodup ∧ (∀ name, r.contains name ↔ ∃ n, g.Distance name n) ∧
        ∃ (h' : w.unlimited.Halts (.start g.root) store) (r' : WalkResult),
          (w.unlimited.fetch g.root store h').1 = .ok r' ∧
          ∀ name, Option.Rel Found.Same (r.find? name) (r'.find? name)) ∧
      ((∀ name, g.answer name ≠ .error (.depthExceeded limit)) →
        ((w.fetch g.root store h).1 = .error (.depthExceeded limit) ↔
          g.IntactWithin limit ∧ ∃ name, g.Distance name (limit + 1))) ∧
      ∀ call ∈ w.calls g.root store h, ∃ n, g.Distance call.1 n ∧ n ≤ limit := by
  have h := halts_of_limit hw g.root store
  have hstops := fetch_stops (keeps_surveys hw hg) ⟨tracks_start w g, covers_start w g, hsees⟩ h
  refine ⟨h, exists_ok_iff hw hg hstops, fun r hr => ?_, depthExceeded_iff hw hg hstops,
    calls_within hw hg hsees h⟩
  obtain ⟨hnodup, hreports⟩ := reports_of_ok hw hg hstops hr
  obtain ⟨hintact, hnear⟩ := (exists_ok_iff hw hg hstops).mp ⟨r, hr⟩
  have hdistance (n : Nat) (l : Link) (hl : g.Way n l) : ∃ m, g.Distance l.target m := by
    obtain ⟨m, -, hdist⟩ := hl.exists_distance
    exact ⟨m, hdist⟩
  have hnames (n : Nat) (l : Link) (hl : g.Way n l) : l.target ∈ r.names :=
    WalkResult.contains_iff.mp ((hreports.1 l.target).mpr (hdistance n l hl))
  have hall (n : Nat) (l : Link) (hl : g.Way n l) : g.Intact l.target := by
    obtain ⟨m, hdist⟩ := hdistance n l hl
    exact hintact _ m hdist (hnear _ m hdist)
  have hsees' : w.unlimited.Sees g store := ⟨hsees.keys, hsees.answers⟩
  have hhalts : w.unlimited.Halts (.start g.root) store :=
    halts_of_names hg hnames hsees'
  obtain ⟨r', hr', hreports'⟩ := reports_of_unlimited rfl hg hsees' hall hhalts
  exact ⟨hnodup, hreports.1, hhalts, r', hr', hreports.same hg hreports'⟩

def letter (c : Char) : Link := ⟨String.ofList [c], none⟩

/-- The root `r` links to `a` and `c`, and `a` to `c`: a walk meets `c` below `a` first. -/
def linksOf (c : Char) : List Link :=
  if c = 'r' then [letter 'a', letter 'c'] else if c = 'a' then [letter 'c'] else []

def shortcut : Store Backing :=
  .plain (.memory ⟨['r', 'a', 'c'].map fun c =>
    ((letter c).target, Block.frameOfLinks (linksOf c))⟩)

theorem valid_of_mem_linksOf {c : Char} {l : Link} (hl : l ∈ linksOf c) :
    l.Valid ∧ l.Canonical := by
  have hmem : l ∈ [letter 'a', letter 'c'] := by
    revert hl
    unfold linksOf
    split_ifs <;> simp +contextual
  simp only [List.mem_cons, List.not_mem_nil, or_false] at hmem
  rcases hmem with rfl | rfl <;>
    exact ⟨⟨by decide, by decide, by simp [letter], by decide⟩, by simp [Link.Canonical, letter]⟩

theorem exists_opens_shortcut {c : Char} (hc : c = 'r' ∨ c = 'a' ∨ c = 'c') :
    (shortcut.graph none (letter 'r')).Intact (letter c).target ∧
      ∃ b, (shortcut.graph none (letter 'r')).opens? (letter c) = some b ∧ b.links = linksOf c := by
  have hsize : (linksOf c).length ≤ 255 ∧ Block.framesLength (linksOf c) ≤ 48 := by
    rcases hc with rfl | rfl | rfl <;> decide
  have hanswer : (shortcut.graph none (letter 'r')).answer (letter c).target =
      .ok ⟨Block.frameOfLinks (linksOf c), false⟩ := by
    rcases hc with rfl | rfl | rfl <;> rfl
  have hname : (Fingerprint.decode (letter c).target).toOption = none := by
    rcases hc with rfl | rfl | rfl <;> decide
  constructor
  · refine ⟨_, hanswer, fun fp hfp => ?_⟩
    rw [hfp] at hname
    cases hname
  · have hparse := Block.parse_frameOfLinks (fun _ => valid_of_mem_linksOf) hsize.1 hsize.2
      (letter c).digestAlgorithm
    rw [LinkGraph.opens?, hanswer]
    exact ⟨_, Link.openBytes?_of_parse hparse, rfl⟩

theorem way_shortcut {l : Link} (hl : (shortcut.graph none (letter 'r')).Way n l) :
    (l = letter 'r' ∧ n = 0) ∨ (l = letter 'a' ∧ n = 1) ∨ (l = letter 'c' ∧ (n = 1 ∨ n = 2)) := by
  have hstep {c : Char} {k : Link} {b : Block} (hc : c = 'r' ∨ c = 'a' ∨ c = 'c')
      (hb : (shortcut.graph none (letter 'r')).opens? (letter c) = some b) (hk : k ∈ b.links) :
      k ∈ linksOf c := by
    obtain ⟨-, b', hb', hlinks⟩ := exists_opens_shortcut hc
    obtain rfl := Option.some.inj (hb.symm.trans hb')
    exact hlinks ▸ hk
  induction hl with
  | root => exact Or.inl ⟨rfl, rfl⟩
  | @step n l k b hl hb hk ih =>
    rcases ih with ⟨rfl, rfl⟩ | ⟨rfl, rfl⟩ | ⟨rfl, -⟩
    · have hmem : k ∈ [letter 'a', letter 'c'] := hstep (Or.inl rfl) hb hk
      simpa using hmem
    · have hmem : k ∈ [letter 'c'] := hstep (Or.inr (Or.inl rfl)) hb hk
      simpa using hmem
    · have hmem : k ∈ [] := hstep (Or.inr (Or.inr rfl)) hb hk
      cases hmem

/-- A name that is first met beyond the limit is found on the shorter way. -/
theorem fetch_by_distance_shortcut :
    let g := shortcut.graph none (letter 'r')
    let w := Store.walker none (some 1)
    w.limit = some 1 ∧ w.Sees g shortcut ∧ g.Uniform ∧
      ∃ r, (shortcut.fetch none (some 1) (letter 'r')).1 = .ok r ∧
        ∀ name, r.contains name ↔ ∃ n, g.Distance name n := by
  intro g w
  have hsees : w.Sees g shortcut :=
    Store.sees_graph (Store.isLocal_base.mpr (.memory _)) none (some 1) (letter 'r')
  have huniform : g.Uniform := by
    intro n l m k hl hk htarget
    have hkey {n : Nat} {l : Link} (hl : g.Way n l) : l.decryption = none := by
      rcases way_shortcut hl with ⟨rfl, -⟩ | ⟨rfl, -⟩ | ⟨rfl, -⟩ <;> rfl
    have hsame : l = k := by
      have hl' := hkey hl
      have hk' := hkey hk
      cases l
      cases k
      simp_all
    rw [hsame]
    cases g.opens? k with
    | none => exact .none
    | some b => exact .some (by simp [Block.same])
  have hchar {n : Nat} {l : Link} (hl : g.Way n l) :
      ∃ c, (c = 'r' ∨ c = 'a' ∨ c = 'c') ∧ l = letter c := by
    rcases way_shortcut hl with ⟨rfl, -⟩ | ⟨rfl, -⟩ | ⟨rfl, -⟩ <;> exact ⟨_, by simp, rfl⟩
  have hintact : g.IntactWithin 1 := by
    intro name n hdist _
    obtain ⟨l, hl, rfl⟩ := hdist.1
    obtain ⟨c, hc, rfl⟩ := hchar hl
    exact (exists_opens_shortcut hc).1
  have hnear : ∀ name n, g.Distance name n → n ≤ 1 := by
    intro name n hdist
    obtain ⟨l, hl, rfl⟩ := hdist.1
    rcases way_shortcut hl with ⟨rfl, rfl⟩ | ⟨rfl, rfl⟩ | ⟨rfl, rfl | rfl⟩
    · simp
    · simp
    · simp
    · obtain ⟨-, b, hb, hlinks⟩ := exists_opens_shortcut (Or.inl rfl)
      have hway : g.Way 1 (letter 'c') := LinkGraph.Way.root.step hb (by rw [hlinks]; decide)
      exact hdist.le hway rfl
  obtain ⟨h, hok, hfound, -⟩ := fetch_by_distance (rfl : w.limit = some 1) hsees huniform
  obtain ⟨r, hr⟩ := hok.mpr ⟨hintact, hnear⟩
  exact ⟨rfl, hsees, huniform, r, hr, (hfound r hr).2.1⟩

end Main

end Walker

end ContentAddressed
