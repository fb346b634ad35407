import ContentAddressed.Proofs.Walk.Step
import ContentAddressed.Walk.Halting

/-!
# Limited walks end

With a limit a walk ends over every store, even one that answers more and more names: links lead on
only up to the limit. What the steps of any walk keep holds where it ends.
-/

namespace ContentAddressed.Walker

variable {σ : Type} {w : Walker σ}

/-- Every walk that has these links to follow ends. -/
def Ends (w : Walker σ) (pending : List (Link × Nat)) : Prop :=
  ∀ (s : WalkState) (store : σ), s.pending = pending → w.Halts s store

theorem ends_nil : w.Ends [] := by
  intro s store hs
  refine Acc.intro _ fun next hnext => ?_
  obtain ⟨l, depth, rest, hpending, -⟩ := hnext
  cases hs.symm.trans hpending

theorem Ends.append {front rest : List (Link × Nat)} (hrest : w.Ends rest)
    (hfront : ∀ p ∈ front, ∀ rest, w.Ends rest → w.Ends (p :: rest)) : w.Ends (front ++ rest) := by
  induction front with
  | nil => exact hrest
  | cons p front ih =>
    rw [List.forall_mem_cons] at hfront
    exact hfront.1 _ (ih hfront.2)

theorem Ends.cons {l : Link} {depth : Nat} {rest : List (Link × Nat)} (hrest : w.Ends rest)
    (hbelow : ¬ w.isBeyond depth → ∀ k, ∀ rest, w.Ends rest → w.Ends ((k, depth + 1) :: rest)) :
    w.Ends ((l, depth) :: rest) := by
  intro s store hs
  have hchildren : ∀ f : Found, ¬ w.isBeyond depth → w.Ends (f.children (depth + 1) ++ rest) := by
    intro f hd
    refine hrest.append fun p hp => ?_
    obtain ⟨k, -, rfl⟩ := List.mem_map.mp hp
    exact hbelow hd k
  refine Acc.intro _ fun next hnext => ?_
  obtain ⟨next, store'⟩ := next
  obtain ⟨l', depth', rest', hpending, hfollow⟩ := hnext
  cases hs.symm.trans hpending
  cases follows_iff.mpr hfollow with
  | beyond => exact hrest _ _ rfl
  | known => exact hrest _ _ rfl
  | enter hd hv hread => exact hchildren _ hd _ _ rfl
  | shorten hd hv hlimit hlt => exact hchildren _ hd _ _ rfl

/-- A link that has a limit before it leads on only so far. -/
theorem ends_cons_of_limit {limit : Nat} (hw : w.limit = some limit) (k : Nat) :
    ∀ {l : Link} {depth : Nat} {rest : List (Link × Nat)}, limit < depth + k → w.Ends rest →
      w.Ends ((l, depth) :: rest) := by
  induction k with
  | zero =>
    intro l depth rest hk hrest
    refine hrest.cons fun hd => absurd ?_ hd
    simpa [isBeyond, hw] using hk
  | succ k ih =>
    intro l depth rest hk hrest
    exact hrest.cons fun _ j rest hrest => ih (by omega) hrest

theorem halts_of_limit {limit : Nat} (hw : w.limit = some limit) (root : Link) (store : σ) :
    w.Halts (.start root) store :=
  ends_cons_of_limit hw (limit + 1) (by omega) ends_nil _ _ rfl

/-- Where a walk ends that keeps an invariant: with nothing left to follow, or with a link that
cannot be read. -/
inductive Stops (w : Walker σ) (I : WalkState → σ → Prop) : Outcome σ WalkResult → Prop
  | done {tooDeep : List String} {visits : List ContentAddressed.Visit} {store : σ}
    (hI : I ⟨[], tooDeep, visits⟩ store) :
    Stops w I (w.finish ⟨[], tooDeep, visits⟩, store)
  | fail {l : Link} {depth : Nat} {rest : List (Link × Nat)} {tooDeep : List String}
    {visits : List ContentAddressed.Visit} {store store' : σ} {e : Error}
    (hI : I ⟨(l, depth) :: rest, tooDeep, visits⟩ store) (hd : ¬ w.isBeyond depth)
    (hread : w.read l store = (.error e, store')) : Stops w I (.error e, store')

def Keeps (w : Walker σ) (I : WalkState → σ → Prop) : Prop :=
  ∀ ⦃l : Link⦄ ⦃depth : Nat⦄ ⦃rest : List (Link × Nat)⦄ ⦃tooDeep : List String⦄
    ⦃visits : List ContentAddressed.Visit⦄ ⦃store store' : σ⦄ ⦃s : WalkState⦄,
    I ⟨(l, depth) :: rest, tooDeep, visits⟩ store →
      w.Follows l depth ⟨rest, tooDeep, visits⟩ store (.ok s, store') → I s store'

theorem Runs.stops {I : WalkState → σ → Prop} (hkeeps : w.Keeps I) {s : WalkState} {store : σ}
    {out : Outcome σ WalkResult} (hI : I s store) (h : w.Runs s store out) : w.Stops I out := by
  induction h with
  | done => exact .done hI
  | fail hl =>
    cases follows_iff.mpr hl with
    | fail hd hv hread => exact .fail hI hd hread
  | step hl _ ih => exact ih (hkeeps hI (follows_iff.mpr hl))

theorem fetch_stops {I : WalkState → σ → Prop} (hkeeps : w.Keeps I) {root : Link} {store : σ}
    (hI : I (.start root) store) (h : w.Halts (.start root) store) :
    w.Stops I (w.fetch root store h) :=
  (runs_run h).stops hkeeps hI

/-- A walk that succeeds ends in a state that keeps the invariant, with nothing left to follow. -/
theorem Stops.exists_of_ok {I : WalkState → σ → Prop} {r : WalkResult} {store' : σ}
    (h : w.Stops I (.ok r, store')) :
    ∃ tooDeep visits, I ⟨[], tooDeep, visits⟩ store' ∧
      w.finish ⟨[], tooDeep, visits⟩ = .ok r := by
  generalize hout : (Except.ok r, store') = out at h
  cases h with
  | @done tooDeep visits store hI =>
    obtain ⟨hfinish, rfl⟩ := Prod.mk.inj hout
    exact ⟨tooDeep, visits, hI, hfinish.symm⟩
  | fail => cases hout

/-- If the end of a walk is a success, every name that was met beyond the limit is reached. -/
theorem eq_result_of_finish {s : WalkState} {r : WalkResult} (h : w.finish s = .ok r) :
    r = s.result ∧ (w.limit ≠ none → ∀ name ∈ s.tooDeep, s.result.contains name) := by
  rw [finish] at h
  split at h
  · split at h
    · next hall => exact ⟨(Except.ok.inj h).symm, fun _ => List.all_eq_true.mp hall⟩
    · cases h
  · next hlimit => exact ⟨(Except.ok.inj h).symm, fun hne => absurd hlimit hne⟩

end ContentAddressed.Walker
