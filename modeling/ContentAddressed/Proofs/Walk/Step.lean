import ContentAddressed.Walk.Basic
import Mathlib.Data.List.Nodup
import Mathlib.Data.List.Perm.Basic

/-!
# One step of a walk without a limit

Without a limit the depths do not matter: a name that the result holds is passed over, every other
name is read and recorded. Over a whole run no name is recorded twice, and every link that was met
is either followed or still pending.
-/

namespace ContentAddressed

namespace WalkResult

def names (r : WalkResult) : List String := r.entries.map Prod.fst

def record (r : WalkResult) (name : String) (f : Found) : WalkResult :=
  ⟨r.entries ++ [(name, f)]⟩

theorem contains_iff {r : WalkResult} {name : String} : r.contains name ↔ name ∈ r.names := by
  simp [contains, find?, names, List.lookup_isSome_iff]

@[simp] theorem names_record (r : WalkResult) (name : String) (f : Found) :
    (r.record name f).names = r.names ++ [name] := by
  simp [names, record]

theorem names_perm (r : WalkResult) : (r.blockNames ++ r.lockedNames).Perm r.names := by
  obtain ⟨entries⟩ := r
  induction entries with
  | nil => exact List.Perm.nil
  | cons e entries ih =>
    obtain ⟨name, f⟩ := e
    cases f with
    | block b => exact ih.cons name
    | locked v => exact List.perm_middle.trans (ih.cons name)

/-- The links that a walk from `root` comes across: the root, and the links of every block. -/
def Meets (r : WalkResult) (root l : Link) : Prop := l = root ∨ ∃ e ∈ r.entries, l ∈ e.2.links

theorem meets_record {r : WalkResult} {root l : Link} {name : String} {f : Found} :
    (r.record name f).Meets root l ↔ r.Meets root l ∨ l ∈ f.links := by
  simp only [Meets, record, List.mem_append, List.mem_singleton]
  constructor
  · rintro (hl | ⟨e, he | rfl, hl⟩)
    · exact Or.inl (Or.inl hl)
    · exact Or.inl (Or.inr ⟨e, he, hl⟩)
    · exact Or.inr hl
  · rintro ((hl | ⟨e, he, hl⟩) | hl)
    · exact Or.inl hl
    · exact Or.inr ⟨e, Or.inl he, hl⟩
    · exact Or.inr ⟨_, Or.inr rfl, hl⟩

theorem mem_entries_of_mem_blocks {r : WalkResult} {name : String} {b : Block}
    (h : (name, b) ∈ r.blocks) : (name, .block b) ∈ r.entries := by
  obtain ⟨⟨name', f⟩, hmem, hf⟩ := List.mem_filterMap.mp h
  cases f with
  | block b' =>
    obtain ⟨rfl, rfl⟩ : name' = name ∧ b' = b := by simpa [Found.block?] using hf
    exact hmem
  | locked v => simp [Found.block?] at hf

theorem mem_lockedEntries_iff {r : WalkResult} {name : String} {v : StoredBytes} :
    (name, v) ∈ r.lockedEntries ↔ (name, Found.locked v) ∈ r.entries := by
  rw [lockedEntries, List.mem_filterMap]
  constructor
  · rintro ⟨⟨other, f⟩, hmem, hf⟩
    cases f with
    | block b => simp [Found.locked?] at hf
    | locked u =>
      obtain ⟨rfl, rfl⟩ : other = name ∧ u = v := by simpa [Found.locked?] using hf
      exact hmem
  · intro h
    exact ⟨_, h, rfl⟩

theorem mem_lockedNames_iff {r : WalkResult} {name : String} :
    name ∈ r.lockedNames ↔ ∃ v, (name, Found.locked v) ∈ r.entries := by
  simp [lockedNames, mem_lockedEntries_iff]

end WalkResult

@[simp] theorem Found.map_fst_children (f : Found) (depth : Nat) :
    (f.children depth).map Prod.fst = f.links := by
  simp [children, Function.comp_def]

namespace WalkState

theorem result_cons (pending pending' : List (Link × Nat)) (tooDeep tooDeep' : List String)
    (v : Visit) (visits : List Visit) :
    result ⟨pending', tooDeep', v :: visits⟩ =
      (result ⟨pending, tooDeep, visits⟩).record v.name v.found := by
  simp [result, WalkResult.record]

theorem visit?_isSome {s : WalkState} {name : String} :
    (s.visit? name).isSome = s.result.contains name := by
  rw [Bool.eq_iff_iff, WalkResult.contains_iff]
  simp [visit?, result, WalkResult.names, List.find?_isSome]

end WalkState

theorem Link.openBytes?_of_parse {keys : Option Keychain} {l : Link} {bs : Bytes} {b : Block}
    (h : Block.parse l.digestAlgorithm bs = .ok b) : l.openBytes? keys bs = some b := by
  rw [openBytes?, h]

namespace Walker

variable {σ : Type} {w : Walker σ}

theorem read_of_openBytes? {l : Link} {store store' : σ} {v : StoredBytes} {b : Block}
    (hv : w.retrieve l.target store = (.ok v, store')) (ha : l.admits v.bytes)
    (hb : l.openBytes? w.keys v.bytes = some b) : w.read l store = (.ok (.block b), store') := by
  simp only [read, hv, if_pos ha, hb]

theorem follow_eq (hw : w.limit = none) (l : Link) (depth : Nat) (s : WalkState) (store : σ) :
    w.follow l depth s store =
      if s.result.contains l.target then (.ok s, store) else w.enter l depth s store := by
  have hbeyond : w.isBeyond depth = false := by simp [isBeyond, hw]
  rw [← WalkState.visit?_isSome, follow, hbeyond]
  cases hv : s.visit? l.target with
  | none => simp
  | some v => simp [hw]

/-- Everything that following a link can do: pass it over, fail, or record its target. -/
theorem follow_cases (hw : w.limit = none) {l : Link} {depth : Nat} {rest : List (Link × Nat)}
    {tooDeep : List String} {visits : List Visit} {store store' : σ} {out : Except Error WalkState}
    (h : w.follow l depth ⟨rest, tooDeep, visits⟩ store = (out, store')) :
    (WalkState.result ⟨rest, tooDeep, visits⟩).contains l.target ∧
        out = .ok ⟨rest, tooDeep, visits⟩ ∧ store' = store ∨
      ¬ (WalkState.result ⟨rest, tooDeep, visits⟩).contains l.target ∧
        ((∃ e, w.read l store = (.error e, store') ∧ out = .error e) ∨
          ∃ f, w.read l store = (.ok f, store') ∧ out =
            .ok ⟨f.children (depth + 1) ++ rest, tooDeep, ⟨l.target, depth, f⟩ :: visits⟩) := by
  rw [follow_eq hw] at h
  by_cases hl : (WalkState.result ⟨rest, tooDeep, visits⟩).contains l.target
  · rw [if_pos hl] at h
    cases h
    exact Or.inl ⟨hl, rfl, rfl⟩
  · rw [if_neg hl, enter] at h
    refine Or.inr ⟨hl, ?_⟩
    rcases hr : w.read l store with ⟨e | f, store''⟩
    · rw [hr] at h
      cases h
      exact Or.inl ⟨e, rfl, rfl⟩
    · rw [hr] at h
      cases h
      exact Or.inr ⟨f, rfl, rfl⟩

/-- The steps of a walk to its outcome: links are followed until none is left or one fails. -/
inductive Runs (w : Walker σ) : WalkState → σ → Outcome σ WalkResult → Prop where
  | done (tooDeep : List String) (visits : List Visit) (store : σ) :
    Runs w ⟨[], tooDeep, visits⟩ store (w.finish ⟨[], tooDeep, visits⟩, store)
  | fail {l : Link} {depth : Nat} {rest : List (Link × Nat)} {tooDeep : List String}
    {visits : List Visit} {store store' : σ} {e : Error}
    (hl : w.follow l depth ⟨rest, tooDeep, visits⟩ store = (.error e, store')) :
    Runs w ⟨(l, depth) :: rest, tooDeep, visits⟩ store (.error e, store')
  | step {l : Link} {depth : Nat} {rest : List (Link × Nat)} {tooDeep : List String}
    {visits : List Visit} {store store' : σ} {s : WalkState} {out : Outcome σ WalkResult}
    (hl : w.follow l depth ⟨rest, tooDeep, visits⟩ store = (.ok s, store'))
    (hs : Runs w s store' out) : Runs w ⟨(l, depth) :: rest, tooDeep, visits⟩ store out

theorem Runs.halts {s : WalkState} {store : σ} {out : Outcome σ WalkResult}
    (h : w.Runs s store out) : w.Halts s store := by
  induction h with
  | done tooDeep visits store =>
    constructor
    rintro next ⟨l, depth, rest, hpending, -⟩
    cases hpending
  | fail hl =>
    constructor
    rintro next ⟨l, depth, rest, hpending, hnext⟩
    cases hpending
    cases hl.symm.trans hnext
  | step hl _ ih =>
    constructor
    rintro ⟨s, store⟩ ⟨l, depth, rest, hpending, hnext⟩
    cases hpending
    cases hl.symm.trans hnext
    exact ih

theorem Runs.run_eq {s : WalkState} {store : σ} {out : Outcome σ WalkResult}
    (h : w.Runs s store out) (hs : w.Halts s store) : w.run s store hs = out := by
  induction h with
  | done tooDeep visits store => rw [run]
  | fail hl =>
    rw [run]
    split
    · next hpending => cases hpending
    · next hpending =>
      cases hpending
      split
      · next hfail =>
        cases hfail.symm.trans hl
        rfl
      · next hok => cases hok.symm.trans hl
  | step hl _ ih =>
    rw [run]
    split
    · next hpending => cases hpending
    · next hpending =>
      cases hpending
      split
      · next hfail => cases hfail.symm.trans hl
      · next hok =>
        cases hok.symm.trans hl
        exact ih _

theorem Halts.exists_runs {s : WalkState} {store : σ} (h : w.Halts s store) :
    ∃ out, w.Runs s store out := by
  induction s, store, h using run.induct w with
  | case1 s store h hs =>
    obtain ⟨pending, tooDeep, visits⟩ := s
    cases hs
    exact ⟨_, Runs.done tooDeep visits store⟩
  | case2 s store h l depth rest hs e store' hl =>
    obtain ⟨pending, tooDeep, visits⟩ := s
    cases hs
    exact ⟨_, Runs.fail hl⟩
  | case3 s store h l depth rest hs s' store' hl ih =>
    obtain ⟨pending, tooDeep, visits⟩ := s
    cases hs
    obtain ⟨out, hout⟩ := ih
    exact ⟨out, Runs.step hl hout⟩

theorem runs_run {s : WalkState} {store : σ} (h : w.Halts s store) :
    w.Runs s store (w.run s store h) := by
  obtain ⟨out, hout⟩ := h.exists_runs
  rw [hout.run_eq h]
  exact hout

/-- No name twice, and no link lost: each one that was met is followed or pending. -/
structure Explored (root : Link) (s : WalkState) : Prop where
  nodup : s.result.names.Nodup
  followed : ∀ l, s.result.Meets root l → s.result.contains l.target ∨ l ∈ s.pending.map Prod.fst

theorem explored_start (root : Link) : Explored root (.start root) := by
  refine ⟨List.nodup_nil, fun l hl => Or.inr ?_⟩
  rcases hl with rfl | ⟨e, he, -⟩
  · exact List.mem_singleton_self l
  · exact absurd he (by simp [WalkState.start, WalkState.result])

variable {root l : Link} {depth : Nat} {rest : List (Link × Nat)} {tooDeep : List String}
  {visits : List Visit}

theorem Explored.pass (h : Explored root ⟨(l, depth) :: rest, tooDeep, visits⟩)
    (hl : (WalkState.result ⟨rest, tooDeep, visits⟩).contains l.target) :
    Explored root ⟨rest, tooDeep, visits⟩ := by
  refine ⟨h.nodup, fun k hk => ?_⟩
  rcases h.followed k hk with hseen | hpending
  · exact Or.inl hseen
  · rw [List.map_cons, List.mem_cons] at hpending
    rcases hpending with rfl | hpending
    · exact Or.inl hl
    · exact Or.inr hpending

theorem Explored.enter {f : Found} (h : Explored root ⟨(l, depth) :: rest, tooDeep, visits⟩)
    (hl : ¬ (WalkState.result ⟨rest, tooDeep, visits⟩).contains l.target) :
    Explored root ⟨f.children (depth + 1) ++ rest, tooDeep, ⟨l.target, depth, f⟩ :: visits⟩ := by
  have hresult : WalkState.result
      ⟨f.children (depth + 1) ++ rest, tooDeep, ⟨l.target, depth, f⟩ :: visits⟩ =
      (WalkState.result ⟨(l, depth) :: rest, tooDeep, visits⟩).record l.target f :=
    WalkState.result_cons _ _ _ _ _ _
  rw [WalkResult.contains_iff] at hl
  constructor
  · rw [hresult, WalkResult.names_record, List.nodup_append_comm, List.singleton_append,
      List.nodup_cons]
    exact ⟨hl, h.nodup⟩
  · intro k hk
    rw [hresult, WalkResult.meets_record] at hk
    simp only [hresult, WalkResult.contains_iff, WalkResult.names_record, List.mem_append,
      List.mem_singleton, List.map_append, Found.map_fst_children]
    rcases hk with hk | hk
    · -- met earlier: the link that is followed now is recorded, every other one waits on
      rcases h.followed k hk with hseen | hpending
      · exact Or.inl (Or.inl (WalkResult.contains_iff.mp hseen))
      · rw [List.map_cons, List.mem_cons] at hpending
        rcases hpending with rfl | hpending
        · exact Or.inl (Or.inr rfl)
        · exact Or.inr (Or.inr hpending)
    · exact Or.inr (Or.inl hk)

/-- Following a link keeps a state explored. -/
theorem Explored.follow (hw : w.limit = none) {store store' : σ} {s : WalkState}
    (h : Explored root ⟨(l, depth) :: rest, tooDeep, visits⟩)
    (hl : w.follow l depth ⟨rest, tooDeep, visits⟩ store = (.ok s, store')) : Explored root s := by
  rcases follow_cases hw hl with ⟨hseen, hs, -⟩ | ⟨hnew, ⟨e, -, hs⟩ | ⟨f, -, hs⟩⟩
  · cases hs
    exact h.pass hseen
  · cases hs
  · cases hs
    exact h.enter hnew

theorem Explored.runs (hw : w.limit = none) {s : WalkState} {store store' : σ} {r : WalkResult}
    (hs : Explored root s) (h : w.Runs s store (.ok r, store')) :
    r.names.Nodup ∧ ∀ l, r.Meets root l → r.contains l.target := by
  generalize hout : (Except.ok r, store') = out at h
  induction h with
  | done tooDeep visits store =>
    simp only [finish, hw, Prod.mk.injEq, Except.ok.injEq] at hout
    obtain ⟨rfl, -⟩ := hout
    refine ⟨hs.nodup, fun l hl => ?_⟩
    simpa using hs.followed l hl
  | fail => simp at hout
  | step hl _ ih => exact ih (hs.follow hw hl) hout

/-- A walk that succeeds has every name once, and has followed the root and the links of every
block. -/
theorem explored_of_fetch (hw : w.limit = none) {store store' : σ} {r : WalkResult}
    {hs : w.Halts (.start root) store} (h : w.fetch root store hs = (.ok r, store')) :
    r.names.Nodup ∧ ∀ l, r.Meets root l → r.contains l.target := by
  have hruns := runs_run hs
  rw [← fetch, h] at hruns
  exact (explored_start root).runs hw hruns

end Walker

end ContentAddressed
