import ContentAddressed.Walk.Basic

/-!
# Walks end

A walk reads every name at most once, and goes back to a name only on a shorter way. So it ends
wherever a store answers only so many names. The links met on the way may form cycles.
-/

namespace ContentAddressed

namespace WalkState

def names (s : WalkState) : List String := s.visits.map Visit.name

def totalDepth : List Visit → Nat
  | [] => 0
  | v :: visits => v.depth + totalDepth visits

theorem visit?_eq_none_iff {s : WalkState} {name : String} :
    s.visit? name = none ↔ name ∉ s.names := by
  simp only [visit?, List.find?_eq_none, names, List.mem_map, beq_iff_eq, not_exists, not_and]

theorem names_shorten (s : WalkState) (name : String) (depth : Nat) :
    (s.shorten name depth).names = s.names := by
  simp only [names, shorten, List.map_map]
  apply List.map_congr_left
  intro v _
  simp only [Function.comp_apply]
  split <;> rfl

theorem totalDepth_shorten_lt {s : WalkState} {v : Visit} {depth : Nat} (hs : s.names.Nodup)
    {name : String} (hv : s.visit? name = some v) (hlt : depth < v.depth) :
    totalDepth (s.shorten name depth).visits < totalDepth s.visits := by
  obtain ⟨pending, tooDeep, visits⟩ := s
  simp only [visit?, names, shorten] at hs hv ⊢
  induction visits with
  | nil => simp at hv
  | cons u visits ih =>
    rw [List.map_cons, List.nodup_cons] at hs
    by_cases hu : u.name = name
    · -- the name does not come again, so the other visits stay as they are
      have hothers : visits.map (fun v => if v.name = name then { v with depth := depth } else v) =
          visits := by
        refine (List.map_congr_left fun x hx => ?_).trans (List.map_id visits)
        have hx' : x.name ≠ name := fun hname => hs.1 (hu ▸ hname ▸ List.mem_map_of_mem hx)
        rw [if_neg hx', id]
      rw [List.find?_cons_of_pos (by simp [hu])] at hv
      obtain rfl := Option.some.inj hv
      simp only [List.map_cons, if_pos hu, hothers, totalDepth]
      omega
    · rw [List.find?_cons_of_neg (by simp [hu])] at hv
      simp only [List.map_cons, if_neg hu, totalDepth]
      have hless := ih hs.2 hv
      omega

end WalkState

namespace Walker

variable {σ : Type} {w : Walker σ}

/-- Everything that following a link can do: note a target beyond the limit, pass over one that was
reached, fail, reach a new one, or go back to one on a shorter way. -/
inductive Follows (w : Walker σ) (l : Link) (depth : Nat) (s : WalkState) (store : σ) :
    Outcome σ WalkState → Prop
  | beyond (hd : w.isBeyond depth) :
    Follows w l depth s store (.ok { s with tooDeep := l.target :: s.tooDeep }, store)
  | known {v : ContentAddressed.Visit} (hd : ¬ w.isBeyond depth) (hv : s.visit? l.target = some v)
    (hle : w.limit.isNone ∨ v.depth ≤ depth) : Follows w l depth s store (.ok s, store)
  | fail {e : Error} {store' : σ} (hd : ¬ w.isBeyond depth) (hv : s.visit? l.target = none)
    (hread : w.read l store = (.error e, store')) : Follows w l depth s store (.error e, store')
  | enter {f : Found} {store' : σ} (hd : ¬ w.isBeyond depth) (hv : s.visit? l.target = none)
    (hread : w.read l store = (.ok f, store')) :
    Follows w l depth s store
      (.ok { s with pending := f.children (depth + 1) ++ s.pending,
                    visits := ⟨l.target, depth, f⟩ :: s.visits }, store')
  | shorten {v : ContentAddressed.Visit} (hd : ¬ w.isBeyond depth) (hv : s.visit? l.target = some v)
    (hlimit : w.limit ≠ none) (hlt : depth < v.depth) :
    Follows w l depth s store
      (.ok { s.shorten l.target depth with
              pending := v.found.children (depth + 1) ++ s.pending }, store)

theorem follows_follow (w : Walker σ) (l : Link) (depth : Nat) (s : WalkState) (store : σ) :
    w.Follows l depth s store (w.follow l depth s store) := by
  rw [follow]
  split
  · next hd => exact .beyond hd
  · next hd =>
    split
    · next hv =>
      rw [enter]
      split
      · next hread => exact .fail hd hv hread
      · next hread => exact .enter hd hv hread
    · next v hv =>
      split
      · next hle => exact .known hd hv (by simpa using hle)
      · next hgt =>
        rw [Bool.or_eq_true, decide_eq_true_eq, not_or, Nat.not_le] at hgt
        exact .shorten hd hv (by simpa using hgt.1) hgt.2

theorem follows_iff {l : Link} {depth : Nat} {s : WalkState} {store : σ}
    {out : Outcome σ WalkState} :
    w.Follows l depth s store out ↔ w.follow l depth s store = out := by
  constructor
  · intro h
    rw [follow]
    cases h with
    | beyond hd => exact if_pos hd
    | known hd hv hle =>
      simp only [if_neg hd, hv]
      exact if_pos (by simpa using hle)
    | fail hd hv hread => simp only [if_neg hd, hv, enter, hread]
    | enter hd hv hread => simp only [if_neg hd, hv, enter, hread]
    | shorten hd hv hlimit hlt =>
      simp only [if_neg hd, hv]
      exact if_neg (by simp [hlimit, Nat.not_le.mpr hlt])
  · rintro rfl
    exact w.follows_follow l depth s store

theorem Follows.unique {l : Link} {depth : Nat} {s : WalkState} {store : σ}
    {out out' : Outcome σ WalkState} (h : w.Follows l depth s store out)
    (h' : w.Follows l depth s store out') : out = out' :=
  (follows_iff.mp h).symm.trans (follows_iff.mp h')

theorem exists_of_read {l : Link} {store store' : σ} {f : Found}
    (h : w.read l store = (.ok f, store')) :
    ∃ v, w.retrieve l.target store = (.ok v, store') ∧ l.admits v.bytes ∧
      f = ((l.openBytes? w.keys v.bytes).map Found.block).getD (.locked v) := by
  rw [read] at h
  split at h
  · cases h
  · next v store₁ hv =>
    split at h
    · next hadmits =>
      split at h
      · next hb =>
        cases h
        exact ⟨v, hv, hadmits, by rw [hb]; rfl⟩
      · next hb =>
        cases h
        exact ⟨v, hv, hadmits, by rw [hb]; rfl⟩
    · cases h

/-- Following a link reads a new name, finds a shorter way, or passes the link over. -/
theorem follow_decreases {left : σ → List String → Nat} {l : Link} {depth : Nat}
    {s s' : WalkState} {store store' : σ}
    (hleft : ∀ v store', l.target ∉ s.names → w.retrieve l.target store = (.ok v, store') →
      left store' (l.target :: s.names) < left store s.names)
    (hs : s.names.Nodup) (h : w.follow l depth s store = (.ok s', store')) :
    s'.names.Nodup ∧ (left store' s'.names < left store s.names ∨
      s'.names = s.names ∧ store' = store ∧
        (WalkState.totalDepth s'.visits < WalkState.totalDepth s.visits ∨
          s'.visits = s.visits ∧ s'.pending = s.pending)) := by
  cases follows_iff.mpr h with
  | beyond => exact ⟨hs, Or.inr ⟨rfl, rfl, Or.inr ⟨rfl, rfl⟩⟩⟩
  | known => exact ⟨hs, Or.inr ⟨rfl, rfl, Or.inr ⟨rfl, rfl⟩⟩⟩
  | enter hd hnew hread =>
    have hnew' : l.target ∉ s.names := WalkState.visit?_eq_none_iff.mp hnew
    obtain ⟨v, hv, -⟩ := exists_of_read hread
    exact ⟨List.nodup_cons.mpr ⟨hnew', hs⟩, Or.inl (hleft v store' hnew' hv)⟩
  | shorten hd hv hlimit hlt =>
    have hnames : (s.shorten l.target depth).names = s.names := s.names_shorten l.target depth
    exact ⟨hnames.symm ▸ hs,
      Or.inr ⟨hnames, rfl, Or.inl (WalkState.totalDepth_shorten_lt hs hv hlt)⟩⟩

/-- A walk ends if its steps keep an invariant under which a number falls with every answer to a new
name. Between two new names only so many ways get shorter, and between two of these only so many
links are passed over. -/
theorem halts_of_decreasing {I : WalkState → σ → Prop} (left : σ → List String → Nat)
    (hkeeps : ∀ {l depth} {s s' : WalkState} {store store'},
      I { s with pending := (l, depth) :: s.pending } store →
        w.follow l depth s store = (.ok s', store') → I s' store')
    (hleft : ∀ {l depth} {s : WalkState} {store v store'},
      I { s with pending := (l, depth) :: s.pending } store → l.target ∉ s.names →
        w.retrieve l.target store = (.ok v, store') →
          left store' (l.target :: s.names) < left store s.names)
    (s : WalkState) (store : σ) (hs : s.names.Nodup) (hI : I s store) : w.Halts s store := by
  refine Acc.intro _ fun ⟨s', store'⟩ ⟨l, depth, rest, hpending, hl⟩ => ?_
  have hI₀ : I { s with pending := (l, depth) :: rest } store := by
    rw [← hpending]
    exact hI
  have hstep := follow_decreases (s := { s with pending := rest }) (fun _ _ => hleft hI₀) hs hl
  exact halts_of_decreasing left hkeeps hleft s' store' hstep.1 (hkeeps hI₀ hl)
termination_by (left store s.names, WalkState.totalDepth s.visits, s.pending.length)
decreasing_by
  rcases hstep.2 with hlt | ⟨hnames, hstore, hlt | ⟨hvisits, hrest⟩⟩
  · exact Prod.Lex.left _ _ hlt
  · obtain rfl : store' = store := hstore
    rw [hnames]
    exact Prod.Lex.right _ (Prod.Lex.left _ _ hlt)
  · obtain rfl : store' = store := hstore
    obtain hpending : s.pending = (l, depth) :: rest := hpending
    rw [hnames, hvisits, hrest, hpending]
    exact Prod.Lex.right _ (Prod.Lex.right _ (Nat.lt_succ_self rest.length))

/-- A number that falls with every answer to a new name, and so bounds how many are read. -/
def BoundedBy (w : Walker σ) (left : σ → List String → Nat) : Prop :=
  ∀ name asked store v store', name ∉ asked → w.retrieve name store = (.ok v, store') →
    left store' (name :: asked) < left store asked

theorem BoundedBy.halts {left : σ → List String → Nat} (hleft : w.BoundedBy left) (s : WalkState)
    (store : σ) (hs : s.names.Nodup) : w.Halts s store :=
  halts_of_decreasing (I := fun _ _ => True) left (fun _ _ => trivial)
    (fun _ => hleft _ _ _ _ _) s store hs trivial

end Walker

end ContentAddressed
