import ContentAddressed.Proofs.Block.Frame
import ContentAddressed.Proofs.Store.Local
import ContentAddressed.Proofs.Walk.Limited
import ContentAddressed.Proofs.Walk.Recursive

/-!
# Stores cannot change what a walk finds

Where names are fingerprints, bytes that are not those of a name end a walk. So two walks that both
succeed read the same bytes at every step, and go the same way.
-/

namespace ContentAddressed

/-- Two findings that are the same but for how the bytes are held. -/
def Found.Alike : Found → Found → Prop
  | block b, block c => b = c
  | locked v, locked u => v.bytes = u.bytes
  | _, _ => False

theorem Found.Alike.links_eq {f f' : Found} (h : f.Alike f') : f.links = f'.links := by
  cases f with
  | block b =>
    cases f' with
    | block c => exact congrArg Block.links h
    | locked u => exact h.elim
  | locked v =>
    cases f' with
    | block c => exact h.elim
    | locked u => rfl

structure Visit.Alike (v u : Visit) : Prop where
  name : v.name = u.name
  depth : v.depth = u.depth
  found : v.found.Alike u.found

namespace WalkResult

/-- Two results with the same names in the same order, and what was found alike. -/
def Alike (r₁ r₂ : WalkResult) : Prop :=
  List.Forall₂ (fun e e' => e.1 = e'.1 ∧ e.2.Alike e'.2) r₁.entries r₂.entries

variable {r₁ r₂ : WalkResult}

theorem Alike.names_eq (h : r₁.Alike r₂) : r₁.names = r₂.names := by
  rw [← List.forall₂_eq_eq_eq]
  rw [names, names, List.forall₂_map_left_iff, List.forall₂_map_right_iff]
  exact h.imp fun e e' he => he.1

theorem Alike.blocks_eq (h : r₁.Alike r₂) : r₁.blocks = r₂.blocks := by
  rw [← List.forall₂_eq_eq_eq]
  refine List.rel_filterMap (fun e e' he => ?_) h
  obtain ⟨name, f⟩ := e
  obtain ⟨name', f'⟩ := e'
  obtain ⟨rfl, hf⟩ := he
  match f, f', hf with
  | .block b, .block c, hblock => exact .some (Prod.ext rfl hblock)
  | .locked v, .locked u, _ => exact .none

theorem Alike.lockedEntries_eq (h : r₁.Alike r₂) :
    r₁.lockedEntries.map (fun e => (e.1, e.2.bytes)) =
      r₂.lockedEntries.map (fun e => (e.1, e.2.bytes)) := by
  rw [← List.forall₂_eq_eq_eq]
  rw [List.forall₂_map_left_iff, List.forall₂_map_right_iff]
  refine List.rel_filterMap (fun e e' he => ?_) h
  obtain ⟨name, f⟩ := e
  obtain ⟨name', f'⟩ := e'
  obtain ⟨rfl, hf⟩ := he
  match f, f', hf with
  | .block b, .block c, _ => exact .none
  | .locked v, .locked u, hbytes => exact .some (Prod.ext rfl hbytes)

end WalkResult

namespace WalkState

/-- Two states of walks that went the same way. -/
structure Lockstep (s t : WalkState) : Prop where
  pending : s.pending = t.pending
  tooDeep : s.tooDeep = t.tooDeep
  visits : List.Forall₂ Visit.Alike s.visits t.visits

variable {s t : WalkState} {name : String}

theorem Lockstep.visit? (h : Lockstep s t) (name : String) :
    Option.Rel Visit.Alike (s.visit? name) (t.visit? name) := by
  obtain ⟨pending, tooDeep, visits⟩ := s
  obtain ⟨pending', tooDeep', visits'⟩ := t
  have hvisits : List.Forall₂ Visit.Alike visits visits' := h.visits
  simp only [WalkState.visit?]
  clear h
  induction hvisits with
  | nil => exact .none
  | @cons v u vs us hvu _ ih =>
    by_cases hname : v.name = name
    · rw [List.find?_cons_of_pos (by simpa using hname),
        List.find?_cons_of_pos (by simpa [← hvu.name] using hname)]
      exact .some hvu
    · rw [List.find?_cons_of_neg (by simpa using hname),
        List.find?_cons_of_neg (by simpa [← hvu.name] using hname)]
      exact ih

theorem Lockstep.visit?_eq_none (h : Lockstep s t) (hv : s.visit? name = none) :
    t.visit? name = none := by
  have hvisit := h.visit? name
  rw [hv] at hvisit
  cases hu : t.visit? name with
  | none => rfl
  | some u =>
    rw [hu] at hvisit
    cases hvisit

theorem Lockstep.exists_visit (h : Lockstep s t) {v : Visit} (hv : s.visit? name = some v) :
    ∃ u, t.visit? name = some u ∧ v.Alike u := by
  have hvisit := h.visit? name
  rw [hv] at hvisit
  cases hu : t.visit? name with
  | none =>
    rw [hu] at hvisit
    cases hvisit
  | some u =>
    rw [hu] at hvisit
    cases hvisit with
    | some hvu => exact ⟨u, rfl, hvu⟩

theorem Lockstep.shorten (h : Lockstep s t) (name : String) (depth : Nat) :
    List.Forall₂ Visit.Alike (s.shorten name depth).visits (t.shorten name depth).visits := by
  simp only [WalkState.shorten, List.forall₂_map_left_iff, List.forall₂_map_right_iff]
  refine h.visits.imp fun v u hvu => ?_
  rw [← hvu.name]
  split
  · exact ⟨rfl, rfl, hvu.found⟩
  · exact hvu

end WalkState

namespace Walker

variable {σ τ : Type} {w : Walker σ} {w₁ : Walker σ} {w₂ : Walker τ} {l root : Link} {depth : Nat}
  {store store' : σ} {store₁ store₁' : σ} {store₂ store₂' : τ} {s s' t t' : WalkState}
  {f₁ f₂ : Found} {r r₁ r₂ : WalkResult}

open WalkState (Lockstep)

section Step

theorem alike_of_read (hkeys : w₁.keys = w₂.keys) (h₁ : w₁.read l store₁ = (.ok f₁, store₁'))
    (h₂ : w₂.read l store₂ = (.ok f₂, store₂'))
    (hbytes : ∀ v₁ v₂, (w₁.retrieve l.target store₁).1 = .ok v₁ →
      (w₂.retrieve l.target store₂).1 = .ok v₂ → l.admits v₁.bytes → l.admits v₂.bytes →
      v₁.bytes = v₂.bytes) : f₁.Alike f₂ := by
  obtain ⟨v₁, hv₁, ha₁, hf₁⟩ := exists_of_read h₁
  obtain ⟨v₂, hv₂, ha₂, hf₂⟩ := exists_of_read h₂
  have heq := hbytes v₁ v₂ (by rw [hv₁]) (by rw [hv₂]) ha₁ ha₂
  rw [hkeys, heq] at hf₁
  cases hopen : l.openBytes? w₂.keys v₂.bytes with
  | none =>
    rw [hopen] at hf₁ hf₂
    subst hf₁ hf₂
    exact heq
  | some b =>
    rw [hopen] at hf₁ hf₂
    subst hf₁ hf₂
    rfl

/-- One link keeps two walks in step, if what they read there is alike. -/
theorem lockstep_follow (hlimit : w₁.limit = w₂.limit) (h : Lockstep s t)
    (h₁ : w₁.Follows l depth s store₁ (.ok s', store₁'))
    (h₂ : w₂.Follows l depth t store₂ (.ok t', store₂'))
    (hread : l.target ∈ s'.names → ∀ f₁ f₂, w₁.read l store₁ = (.ok f₁, store₁') →
      w₂.read l store₂ = (.ok f₂, store₂') → f₁.Alike f₂) : Lockstep s' t' := by
  have hbeyond : w₁.isBeyond depth = w₂.isBeyond depth := by rw [isBeyond, isBeyond, hlimit]
  cases h₁ with
  | beyond hd =>
    rw [hbeyond] at hd
    cases h₂.unique (.beyond hd)
    exact ⟨h.pending, congrArg (l.target :: ·) h.tooDeep, h.visits⟩
  | @known v hd hv hle =>
    obtain ⟨u, hu, hvu⟩ := h.exists_visit hv
    rw [hbeyond] at hd
    rw [hlimit, hvu.depth] at hle
    cases h₂.unique (.known hd hu hle)
    exact h
  | @enter f _ hd hv hread₁ =>
    have hnew := h.visit?_eq_none hv
    cases h₂ with
    | beyond hd' => exact absurd (hbeyond ▸ hd') hd
    | known hd' hu hle => cases hnew.symm.trans hu
    | enter hd' hu hread₂ =>
      have halike := hread List.mem_cons_self _ _ hread₁ hread₂
      refine ⟨?_, h.tooDeep, .cons ⟨rfl, rfl, halike⟩ h.visits⟩
      simp only [Found.children, halike.links_eq, h.pending]
    | shorten hd' hu hlimit' hlt => cases hnew.symm.trans hu
  | @shorten v hd hv hlimit₁ hlt =>
    obtain ⟨u, hu, hvu⟩ := h.exists_visit hv
    rw [hbeyond] at hd
    rw [hlimit] at hlimit₁
    rw [hvu.depth] at hlt
    cases h₂.unique (.shorten hd hu hlimit₁ hlt)
    refine ⟨?_, h.tooDeep, h.shorten l.target depth⟩
    simp only [Found.children, hvu.found.links_eq, h.pending]

end Step

section Run

theorem eq_of_finish {tooDeep : List String} {visits : List ContentAddressed.Visit}
    (h : w.finish ⟨[], tooDeep, visits⟩ = .ok r) : r = WalkState.result ⟨[], tooDeep, visits⟩ := by
  rw [finish] at h
  split at h
  · split at h
    · exact (Except.ok.inj h).symm
    · cases h
  · exact (Except.ok.inj h).symm

theorem Follows.names_subset {out : Outcome σ WalkState} (h : w.Follows l depth s store out)
    (hs : out.1 = .ok s') : s.names ⊆ s'.names := by
  cases h with
  | beyond | known =>
    cases hs
    exact List.Subset.refl _
  | fail => cases hs
  | enter =>
    cases hs
    exact List.subset_cons_self _ _
  | shorten =>
    cases hs
    exact (s.names_shorten l.target depth).symm ▸ List.Subset.refl _

theorem Runs.names_subset (h : w.Runs s store (.ok r, store')) : s.names ⊆ r.names := by
  generalize hout : (Except.ok r, store') = out at h
  induction h with
  | done tooDeep visits store =>
    obtain ⟨hfinish, -⟩ := Prod.mk.inj hout
    rw [eq_of_finish hfinish.symm]
    simp [WalkState.names, WalkState.result, WalkResult.names, Function.comp_def]
  | fail => cases hout
  | step hl _ ih =>
    exact List.Subset.trans ((follows_iff.mpr hl).names_subset rfl) (ih hout)

/-- Calls of two walks that do not contradict each other: two answers that match the fingerprint of
their name have the same bytes. -/
def Agree (calls₁ calls₂ : List Call) : Prop :=
  ∀ name fp v₁ v₂, Fingerprint.decode name = .ok fp → (name, .ok v₁) ∈ calls₁ →
    (name, .ok v₂) ∈ calls₂ → fp.isOf v₁.bytes → fp.isOf v₂.bytes → v₁.bytes = v₂.bytes

/-- Two walks in step stay so to their ends, by induction on the first: where both read, the calls
do not contradict each other. -/
theorem lockstep_runs (hkeys : w₁.keys = w₂.keys) (hlimit : w₁.limit = w₂.limit)
    {p₁ p₁' : σ × List Call} {p₂ p₂' : τ × List Call} (hst : Lockstep s t)
    (h₁ : w₁.recording.Runs s p₁ (.ok r₁, p₁')) (h₂ : w₂.recording.Runs t p₂ (.ok r₂, p₂'))
    (hnames : ∀ name, r₁.contains name → ∃ fp, Fingerprint.decode name = .ok fp)
    (hagree : Agree p₁'.2 p₂'.2) :
    r₁.Alike r₂ := by
  generalize hout : (Except.ok r₁, p₁') = out at h₁
  induction h₁ generalizing t p₂ with
  | done tooDeep visits p =>
    obtain ⟨hfinish₁, -⟩ := Prod.mk.inj hout
    obtain ⟨pending', tooDeep', visits'⟩ := t
    obtain rfl : [] = pending' := hst.pending
    generalize hout₂ : (Except.ok r₂, p₂') = out₂ at h₂
    cases h₂
    obtain ⟨hfinish₂, -⟩ := Prod.mk.inj hout₂
    rw [eq_of_finish hfinish₁.symm, eq_of_finish hfinish₂.symm]
    simp only [WalkResult.Alike, WalkState.result, List.forall₂_map_left_iff,
      List.forall₂_map_right_iff, List.forall₂_reverse_iff]
    exact hst.visits.imp fun v u hvu => ⟨hvu.name, hvu.found⟩
  | fail => cases hout
  | @step l depth rest tooDeep visits p q s out hl hs ih =>
    subst hout
    obtain ⟨pending', tooDeep', visits'⟩ := t
    obtain rfl : (l, depth) :: rest = pending' := hst.pending
    cases h₂ with
    | @step _ _ _ _ _ _ q' t _ hl' ht =>
    have hlimit' : w₁.recording.limit = w₂.recording.limit := hlimit
    have hstep : Lockstep ⟨rest, tooDeep, visits⟩ ⟨rest, tooDeep', visits'⟩ :=
      ⟨rfl, hst.tooDeep, hst.visits⟩
    refine ih (lockstep_follow hlimit' hstep (follows_iff.mpr hl) (follows_iff.mpr hl') ?_) ht rfl
    intro hmem f₁ f₂ hread₁ hread₂
    obtain ⟨hr₁, hcalls₁⟩ := recording_read_iff.mp hread₁
    obtain ⟨hr₂, hcalls₂⟩ := recording_read_iff.mp hread₂
    obtain ⟨fp, hfp⟩ := hnames l.target (WalkResult.contains_iff.mpr (hs.names_subset hmem))
    refine alike_of_read hkeys hr₁ hr₂ fun v₁ v₂ hv₁ hv₂ ha₁ ha₂ => ?_
    refine hagree l.target fp v₁ v₂ hfp (hs.calls_subset ?_) (ht.calls_subset ?_)
      (Link.admits_iff.mp ha₁ fp hfp) (Link.admits_iff.mp ha₂ fp hfp)
    · rw [hcalls₁, hv₁]
      exact List.mem_cons_self
    · rw [hcalls₂, hv₂]
      exact List.mem_cons_self

/-- What no store can change: if the names that a walk reaches are fingerprints, every walk with the
same keys and the same limit that succeeds over another store has the same result, in the same
order. The stores may answer anything, as long as they do not answer one name with two byte strings
that both match it. -/
theorem fetch_eq_of_fingerprints (hkeys : w₁.keys = w₂.keys) (hlimit : w₁.limit = w₂.limit)
    (h₁ : w₁.Halts (.start root) store₁) (h₂ : w₂.Halts (.start root) store₂)
    (hr₁ : w₁.fetch root store₁ h₁ = (.ok r₁, store₁'))
    (hr₂ : w₂.fetch root store₂ h₂ = (.ok r₂, store₂'))
    (hnames : ∀ name, r₁.contains name → ∃ fp, Fingerprint.decode name = .ok fp)
    (hagree : Agree (w₁.calls root store₁ h₁) (w₂.calls root store₂ h₂)) :
    r₁.names = r₂.names ∧ r₁.blocks = r₂.blocks ∧
      r₁.lockedEntries.map (fun e => (e.1, e.2.bytes)) =
        r₂.lockedEntries.map (fun e => (e.1, e.2.bytes)) := by
  have hruns₁ := runs_recording h₁
  have hruns₂ := runs_recording h₂
  rw [hr₁] at hruns₁
  rw [hr₂] at hruns₂
  have hstart : Lockstep (.start root) (.start root) := ⟨rfl, rfl, .nil⟩
  have halike := lockstep_runs hkeys hlimit hstart hruns₁ hruns₂ hnames hagree
  exact ⟨halike.names_eq, halike.blocks_eq, halike.lockedEntries_eq⟩

/-- A store that answers every name with the same bytes. -/
def answering (bs : Bytes) : Walker Unit := { retrieve := fun _ u => (.ok ⟨bs, true⟩, u) }

/-- A memory that holds one block, and a store that answers any name with its bytes. -/
theorem fetch_eq_of_fingerprints_answering :
    let bs := Block.frameOfLinks []
    let root := Link.ofFingerprint (Fingerprint.of .standard bs)
    let w : Walker (Store Backing) := Store.walker none none
    let s : Store Backing := .plain (.memory ⟨[(root.target, bs)]⟩)
    ∃ (h₁ : w.Halts (.start root) s) (h₂ : (answering bs).Halts (.start root) ())
      (r₁ r₂ : WalkResult),
      w.fetch root s h₁ = (.ok r₁, s) ∧ (answering bs).fetch root () h₂ = (.ok r₂, ()) ∧
      (∀ name, r₁.contains name → ∃ fp, Fingerprint.decode name = .ok fp) ∧
      Agree (w.calls root s h₁) ((answering bs).calls root () h₂) ∧ r₁.blocks = r₂.blocks := by
  intro bs root w s
  have hdecode : Fingerprint.decode root.target = .ok (Fingerprint.of .standard bs) :=
    Fingerprint.decode_encode _
  have hadmits : root.admits bs := by
    rw [Link.admits_iff]
    intro fp hfp
    obtain rfl := Except.ok.inj (hdecode.symm.trans hfp)
    exact Fingerprint.isOf_of .standard bs
  let b : Block := ⟨[], [], bs, Fingerprint.of root.digestAlgorithm bs⟩
  have hopen : root.openBytes? none bs = some b :=
    Link.openBytes?_of_parse (Block.parse_frameOfLinks (by simp) (by decide) (by decide) _)
  have hlocal : s.IsLocal := Store.isLocal_base.mpr (.memory _)
  have hretrieve (name : String) : w.retrieve name s =
      (if name = root.target then .ok ⟨bs, false⟩ else .error (.noSuchBlock name), s) := by
    refine Prod.ext ?_ (Store.retrieve_state hlocal name)
    change (Memory.get ⟨[(root.target, bs)]⟩ name).1 = _
    by_cases hname : name = root.target
    · simp [Memory.get, NameTable.find?, hname]
    · simp [Memory.get, NameTable.find?, hname, List.lookup_cons, beq_eq_false_iff_ne.mpr hname]
  have hread₁ : w.read root s = (.ok (.block b), s) :=
    read_of_openBytes? (v := ⟨bs, false⟩) (by rw [hretrieve, if_pos rfl]) hadmits hopen
  have hread₂ : (answering bs).read root () = (.ok (.block b), ()) :=
    read_of_openBytes? (v := ⟨bs, true⟩) rfl hadmits hopen
  have hnew : ¬ (⟨[]⟩ : WalkResult).contains root.target := by
    simp [WalkResult.contains_iff, WalkResult.names]
  obtain ⟨h₁, hr₁⟩ := (visit_iff_fetch rfl).mp (Visit.enter hnew hread₁ .nil)
  obtain ⟨h₂, hr₂⟩ := (visit_iff_fetch rfl).mp (Visit.enter hnew hread₂ .nil)
  have hnames : ∀ name, (WalkResult.record {} root.target (.block b)).contains name →
      ∃ fp, Fingerprint.decode name = .ok fp := by
    intro name hname
    rw [WalkResult.contains_iff, WalkResult.names_record] at hname
    obtain rfl : name = root.target := by simpa [WalkResult.names] using hname
    exact ⟨_, hdecode⟩
  have hagree : Agree (w.calls root s h₁) ((answering bs).calls root () h₂) := by
    intro name fp v₁ v₂ _ hv₁ hv₂ _ _
    obtain ⟨names₁, h₁⟩ := exists_of_mem_calls hv₁
    obtain ⟨names₂, h₂⟩ := exists_of_mem_calls hv₂
    rw [Store.afterReads_eq hlocal, hretrieve] at h₁
    obtain rfl := Except.ok.inj h₂
    split at h₁
    · obtain rfl := Except.ok.inj h₁
      rfl
    · cases h₁
  have hkeys : w.keys = (answering bs).keys := rfl
  have hlimit : w.limit = (answering bs).limit := rfl
  exact ⟨h₁, h₂, _, _, hr₁, hr₂, hnames, hagree,
    (fetch_eq_of_fingerprints hkeys hlimit h₁ h₂ hr₁ hr₂ hnames hagree).2.1⟩

end Run

end Walker

end ContentAddressed
