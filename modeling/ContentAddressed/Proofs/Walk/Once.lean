import ContentAddressed.Proofs.Walk.DepthLimit

/-!
# Walks end and ask for a name only once

A walk ends over every store that answers finitely many names, and with a limit over every store. Up
to its end it has asked for no name twice, though it follows the links of a block again when it
comes back to it on a shorter way.
-/

namespace ContentAddressed

namespace Walker

variable {σ : Type} {w : Walker σ} {l : Link} {depth : Nat} {s s' : WalkState}
  {start store store' : σ}

/-! ## Stores that answer finitely many names -/

/-- Those of some names that a store answers when they are asked for in turn. -/
def answered (w : Walker σ) (store : σ) : List String → List String
  | [] => []
  | name :: names =>
    match w.retrieve name store with
    | (.ok _, store) => name :: answered w store names
    | (.error _, store) => answered w store names

/-- A store that answers finitely many names: however many different ones are asked for, at most so
many are answered. -/
def AnswersFinitely (w : Walker σ) (store : σ) : Prop :=
  ∃ n, ∀ names : List String, names.Nodup → (w.answered store names).length ≤ n

theorem answered_concat (w : Walker σ) (store : σ) (names : List String) {name : String}
    {v : StoredBytes} (h : w.retrieve name (w.afterReads store names) = (.ok v, store')) :
    w.answered store (names ++ [name]) = w.answered store names ++ [name] := by
  induction names generalizing store with
  | nil =>
    have h : w.retrieve name store = (.ok v, store') := h
    simp only [List.nil_append, answered, h]
  | cons other names ih =>
    have hrest := ih (w.retrieve other store).2 h
    rw [List.cons_append, answered, answered]
    rcases hother : w.retrieve other store with ⟨e | u, store₁⟩
    · rw [hother] at hrest
      exact hrest
    · rw [hother] at hrest
      exact congrArg (other :: ·) hrest

/-- The names that a walk has reached, the latest first, and the store that reading them leaves. -/
structure HasRead (w : Walker σ) (start : σ) (names : List String) (store : σ) : Prop where
  nodup : names.Nodup
  store_eq : store = w.afterReads start names.reverse
  answered : w.answered start names.reverse = names.reverse

theorem hasRead_nil (w : Walker σ) (store : σ) : w.HasRead store [] store :=
  ⟨List.nodup_nil, rfl, rfl⟩

theorem HasRead.cons {names : List String} {name : String} {v : StoredBytes}
    (h : w.HasRead start names store) (hnew : name ∉ names)
    (hv : w.retrieve name store = (.ok v, store')) : w.HasRead start (name :: names) store' := by
  have hv₀ := hv
  rw [h.store_eq] at hv₀
  refine ⟨List.nodup_cons.mpr ⟨hnew, h.nodup⟩, ?_, ?_⟩
  · rw [List.reverse_cons, afterReads_append, ← h.store_eq]
    exact (congrArg Prod.snd hv).symm
  · rw [List.reverse_cons, answered_concat w start _ hv₀, h.answered]

theorem HasRead.follow (h : w.HasRead start s.names store)
    (hl : w.Follows l depth s store (.ok s', store')) : w.HasRead start s'.names store' := by
  cases hl with
  | beyond | known => exact h
  | enter hd hv hread =>
    obtain ⟨v, hretrieve, -⟩ := exists_of_read hread
    exact h.cons (WalkState.visit?_eq_none_iff.mp hv) hretrieve
  | shorten =>
    rw [← s.names_shorten l.target depth] at h
    exact h

/-- A walk ends if the store where it starts answers finitely many names. -/
theorem AnswersFinitely.halts (h : w.AnswersFinitely store) (root : Link) :
    w.Halts (.start root) store := by
  obtain ⟨n, hn⟩ := h
  refine halts_of_decreasing (I := fun s => w.HasRead store s.names)
    (fun _ asked => n - asked.length)
    (fun {l depth s s' store₁ store₂} hI hl => HasRead.follow (s := s) hI (follows_iff.mpr hl))
    (fun {l depth s store₁ v store₂} hI hnew hv => ?_) _ _ List.nodup_nil (hasRead_nil w store)
  -- the new name is answered as well, so there is room for it among the names that are
  have hread := hI.cons hnew hv
  have hroom := hn _ (List.nodup_reverse.mpr hread.nodup)
  rw [hread.answered, List.length_reverse, List.length_cons] at hroom
  change n - (s.names.length + 1) < n - s.names.length
  exact Nat.sub_lt_sub_left hroom (Nat.lt_succ_self _)

end Walker

namespace Store

variable {μ : Type} [Medium μ] [FiniteMedium μ]

/-- Every answer to a new name leaves fewer names that may be answered. -/
theorem length_answered_le (keys : Option Keychain) (limit : Option Nat) (s : Store μ)
    {names asked : List String} (hnames : names.Nodup) (hnew : ∀ name ∈ names, name ∉ asked) :
    ((walker keys limit).answered s names).length ≤ s.left asked := by
  induction names generalizing s asked with
  | nil => exact Nat.zero_le _
  | cons name names ih =>
    obtain ⟨hname, hnames⟩ := List.nodup_cons.mp hnames
    obtain ⟨hnew₀, hnew⟩ := List.forall_mem_cons.mp hnew
    rw [Walker.answered]
    rcases hr : (walker keys limit).retrieve name s with ⟨e | v, s'⟩
    · have hle := s.left_retrieve_le name asked
      rw [show s.retrieve name = _ from hr] at hle
      exact (ih s' hnames hnew).trans hle
    · have hlt := left_answer_lt name asked s v s' hnew₀ hr
      have hfresh : ∀ other ∈ names, other ∉ name :: asked := by
        intro other hother
        rw [List.mem_cons, not_or]
        exact ⟨fun h => hname (h ▸ hother), hnew other hother⟩
      exact (ih s' hnames hfresh).trans_lt hlt

theorem answersFinitely (s : Store μ) (keys : Option Keychain) (limit : Option Nat) :
    (walker keys limit).AnswersFinitely s :=
  ⟨s.left [], fun _ hnames => length_answered_le keys limit s hnames fun _ _ => List.not_mem_nil⟩

end Store

namespace Walker

variable {σ : Type} {w : Walker σ} {l : Link} {depth : Nat} {s s' : WalkState}

/-! ## Names that a walk asks for -/

/-- The calls written down are those of the names reached, and no name is there twice. -/
structure Records (names : List String) (calls : List Call) : Prop where
  nodup : names.Nodup
  names_eq : calls.map Prod.fst = names

theorem Records.follow {p p' : σ × List Call} (h : Records s.names p.2)
    (hl : w.recording.Follows l depth s p (.ok s', p')) : Records s'.names p'.2 := by
  cases hl with
  | beyond | known => exact h
  | enter hd hv hread =>
    have hnew := WalkState.visit?_eq_none_iff.mp hv
    refine ⟨List.nodup_cons.mpr ⟨hnew, h.nodup⟩, ?_⟩
    rw [(recording_read_iff.mp hread).2, List.map_cons, h.names_eq]
    rfl
  | shorten =>
    rw [← s.names_shorten l.target depth] at h
    exact h

/-- The call that fails is the last one, and its name is none of those reached. -/
theorem Records.nodup_of_fail {p p' : σ × List Call} {e : Error} (h : Records s.names p.2)
    (hl : w.recording.Follows l depth s p (.error e, p')) : (p'.2.map Prod.fst).Nodup := by
  cases hl with
  | fail hd hv hread =>
    rw [(recording_read_iff.mp hread).2, List.map_cons, h.names_eq, List.nodup_cons]
    exact ⟨WalkState.visit?_eq_none_iff.mp hv, h.nodup⟩

theorem Records.runs {p : σ × List Call} {out : Outcome (σ × List Call) WalkResult}
    (h : Records s.names p.2) (hruns : w.recording.Runs s p out) :
    (out.2.2.map Prod.fst).Nodup := by
  induction hruns with
  | done tooDeep visits p =>
    rw [h.names_eq]
    exact h.nodup
  | @fail l depth rest tooDeep visits p p' e hl =>
    exact h.nodup_of_fail (s := ⟨rest, tooDeep, visits⟩) (follows_iff.mpr hl)
  | @step l depth rest tooDeep visits p p' s out hl _ ih =>
    exact ih (h.follow (s := ⟨rest, tooDeep, visits⟩) (follows_iff.mpr hl))

/-- A walk ends and has asked for each name at most once, whatever links the blocks hold: over every
store that answers finitely many names, and with a limit over every store. -/
theorem fetch_asks_once (w : Walker σ) (root : Link) (store : σ)
    (hw : w.limit ≠ none ∨ w.AnswersFinitely store) :
    ∃ h : w.Halts (.start root) store, ((w.calls root store h).map Prod.fst).Nodup := by
  have h : w.Halts (.start root) store := by
    rcases hw with hlimit | hfinite
    · obtain ⟨limit, hlimit⟩ := Option.ne_none_iff_exists'.mp hlimit
      exact halts_of_limit hlimit root store
    · exact hfinite.halts root
  have hstart : Records (WalkState.start root).names [] := ⟨List.nodup_nil, rfl⟩
  have hnodup := Records.runs (p := (store, [])) hstart (runs_recording h)
  exact ⟨h, hnodup⟩

/-- Two blocks that link to each other and to themselves, and, with a limit, a store that answers
every name with a link to a longer one. -/
theorem fetch_asks_once_cycle :
    let frame := Block.frameOfLinks [letter 'a', letter 'b']
    let cycle : Store Backing := .plain (.memory ⟨[("a", frame), ("b", frame)]⟩)
    let w := Store.walker none none
    let endless : Walker Unit :=
      { retrieve := fun name _ => (.ok ⟨Block.frameOfLinks [⟨name ++ "a", none⟩], false⟩, ())
        limit := some 2 }
    (w.AnswersFinitely cycle ∧
      ∃ h : w.Halts (.start (letter 'a')) cycle, ((w.calls _ cycle h).map Prod.fst).Nodup) ∧
    endless.limit ≠ none ∧
      ∃ h : endless.Halts (.start (letter 'a')) (),
        ((endless.calls _ () h).map Prod.fst).Nodup := by
  intro frame cycle w endless
  have hfinite : w.AnswersFinitely cycle := cycle.answersFinitely none none
  have hlimit : endless.limit ≠ none := by simp [endless]
  exact ⟨⟨hfinite, fetch_asks_once w (letter 'a') cycle (Or.inr hfinite)⟩, hlimit,
    fetch_asks_once endless (letter 'a') () (Or.inl hlimit)⟩

end Walker

end ContentAddressed
