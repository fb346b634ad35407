import ContentAddressed.Proofs.Medium.Retaining
import ContentAddressed.Proofs.Store.History

/-!
# Waiting names are never missed

A name waits in a journal only after its bytes went all the way to the innermost medium. So the
cache in front of a journal never answers that a waiting name is missing, and a flush fails only
where a medium does. Nothing is asked of what the media hold at the start, or of the bytes that are
written under one name.
-/

namespace ContentAddressed

open RetainingMedium (Has Raises)

namespace Store

variable {μ : Type}

def innermost : Store μ → μ
  | base m _ => m
  | cached _ _ c => c.innermost

theorem mem_levels_self (s : Store μ) : s ∈ s.levels := by
  cases s <;> exact List.mem_cons_self

theorem exists_of_atLevel {α : Type} {k : Nat} {f : Store μ → α × Store μ} {s s' : Store μ}
    {out : α} (h : s.atLevel k f = some (out, s')) : ∃ t ∈ s.levels, ∃ t', f t = (out, t') := by
  induction k generalizing s s' with
  | zero => exact ⟨s, s.mem_levels_self, s', atLevel_zero_eq_some_iff.mp h⟩
  | succ k ih =>
    obtain ⟨m, j, c, c', rfl, hc, rfl⟩ := atLevel_succ_eq_some_iff.mp h
    obtain ⟨t, ht, hf⟩ := ih hc
    exact ⟨t, List.mem_cons_of_mem _ ht, hf⟩

variable [Medium μ] [RetainingMedium μ] {names : String → Prop} {raised : Error → Prop}
  {m m' : μ} {s s' t : Store μ} {name : String}

/-- A chain whose innermost medium has some names, and with them every name that waits at any level.
Its media raise no other failures than those given. -/
def Backs (names : String → Prop) (raised : Error → Prop) : Store μ → Prop
  | base m j =>
    (∀ e, Raises m e → raised e) ∧ j = [] ∧ (∀ name, names name → Has m name) ∧
      ∀ missing, ¬ Raises m (.noSuchBlock missing)
  | cached m j c =>
    (∀ e, Raises m e → raised e) ∧ (∀ name ∈ j, names name) ∧ Backs names raised c

/-- Where nothing waits, the names that wait are backed, since there are none. -/
theorem Backs.of_journals_empty (hempty : ∀ level ∈ s.levels, level.journal = [])
    (hlast : ∀ missing, ¬ Raises s.innermost (.noSuchBlock missing))
    (hraised : ∀ level ∈ s.levels, ∀ e, Raises level.medium e → raised e) :
    s.Backs (fun _ => False) raised := by
  induction s with
  | base m j =>
    exact ⟨hraised _ List.mem_cons_self, hempty _ List.mem_cons_self, fun _ => False.elim, hlast⟩
  | cached m j c ih =>
    obtain ⟨hm, hc⟩ := List.forall_mem_cons.mp hempty
    obtain ⟨hmraised, hcraised⟩ := List.forall_mem_cons.mp hraised
    obtain rfl : j = [] := hm
    exact ⟨hmraised, fun _ h => absurd h List.not_mem_nil, ih hc hlast hcraised⟩

theorem Backs.level (h : s.Backs names raised) (ht : t ∈ s.levels) : t.Backs names raised := by
  induction s with
  | base m j =>
    obtain rfl := List.mem_singleton.mp ht
    exact h
  | cached m j c ih =>
    rcases List.mem_cons.mp ht with rfl | ht
    · exact h
    · exact ih h.2.2 ht

/-- A name that is backed is not missed; other failures come from the media. -/
theorem Backs.retrieve (h : s.Backs names raised) {out : Except Error StoredBytes}
    (hr : s.retrieve name = (out, s')) :
    s'.Backs names raised ∧ (names name → ∀ missing, out ≠ .error (.noSuchBlock missing)) ∧
      ∀ e, out = .error e → raised e ∨ ∃ missing, e = .noSuchBlock missing := by
  induction s generalizing s' out with
  | base m j =>
    obtain ⟨hout, rfl⟩ := Prod.mk.inj hr
    obtain ⟨hraised, rfl, hhas, hnever⟩ := h
    obtain ⟨hretains, herror⟩ := RetainingMedium.get_retains (Prod.ext hout rfl)
    refine ⟨⟨fun e he => hraised e (hretains.raises e he), rfl,
      fun other ho => hretains.has other (hhas other ho),
      fun missing hm => hnever missing (hretains.raises _ hm)⟩, ?_, fun e he => ?_⟩
    · rintro hname missing rfl
      rcases herror _ rfl with hm | ⟨-, hgone⟩
      · exact hnever missing hm
      · exact hgone (hhas name hname)
    · exact (herror e he).imp (hraised e) fun hmissing => ⟨name, hmissing.1⟩
  | cached m j c ih =>
    obtain ⟨hraised, hwaiting, hcache⟩ := h
    rw [Store.retrieve] at hr
    split at hr
    · next v c' hc =>
      cases hr
      exact ⟨⟨hraised, hwaiting, (ih hcache hc).1⟩, fun _ _ h => (by cases h),
        fun _ h => by cases h⟩
    · next missing c' hc =>
      obtain ⟨hout, rfl⟩ := Prod.mk.inj hr
      obtain ⟨hcache', hfound, -⟩ := ih hcache hc
      obtain ⟨hretains, herror⟩ := RetainingMedium.get_retains (Prod.ext hout rfl)
      refine ⟨⟨fun e he => hraised e (hretains.raises e he), hwaiting, hcache'⟩,
        fun hname => absurd rfl (hfound hname missing), fun e he => ?_⟩
      exact (herror e he).imp (hraised e) fun hmissing => ⟨name, hmissing.1⟩
    · next e c' hne hc =>
      cases hr
      obtain ⟨hcache', hfound, herror⟩ := ih hcache hc
      exact ⟨⟨hraised, hwaiting, hcache'⟩, hfound, herror⟩

/-- A write that succeeds reaches the innermost medium, and its name may wait from then on. -/
theorem Backs.storeBytes (h : s.Backs names raised) {bs : Bytes} (hbs : bs ≠ [])
    {out : Except Error Unit} (hs : s.storeBytes name bs = (out, s')) :
    (out = .ok () → s'.Backs (fun other => names other ∨ other = name) raised) ∧
      ∀ e, out = .error e → s'.Backs names raised := by
  induction s generalizing s' out with
  | base m j =>
    obtain ⟨hout, rfl⟩ := Prod.mk.inj hs
    obtain ⟨hraised, rfl, hhas, hnever⟩ := h
    obtain ⟨hretains, haccepted, -⟩ := RetainingMedium.put_retains (Prod.ext hout rfl)
    have hraised' := fun e he => hraised e (hretains.raises e he)
    have hhas' := fun other ho => hretains.has other (hhas other ho)
    have hnever' := fun missing hm => hnever missing (hretains.raises _ hm)
    refine ⟨fun hok => ⟨hraised', rfl, ?_, hnever'⟩, fun _ _ => ⟨hraised', rfl, hhas', hnever'⟩⟩
    rintro other (ho | rfl)
    · exact hhas' other ho
    · exact haccepted hok hbs
  | cached m j c ih =>
    obtain ⟨hraised, hwaiting, hcache⟩ := h
    rw [Store.storeBytes] at hs
    split at hs
    · next c' hc =>
      cases hs
      refine ⟨fun _ => ⟨hraised, fun other ho => ?_, (ih hcache hc).1 rfl⟩, fun _ h => by cases h⟩
      rw [List.mem_append, List.mem_singleton] at ho
      exact ho.imp_left (hwaiting other)
    · next e c' hc =>
      cases hs
      exact ⟨fun h => (by cases h), fun _ _ => ⟨hraised, hwaiting, (ih hcache hc).2 e rfl⟩⟩

/-- Draining names that are backed stops only where a medium fails. -/
theorem backs_drain {queue queue' : List String} {c c' : Store μ} {out : Except Error Unit}
    (hraised : ∀ e, Raises m e → raised e) (hwaiting : ∀ name ∈ queue, names name)
    (hcache : c.Backs names raised) (h : drain m queue c = (out, m', queue', c')) :
    ((∀ e, Raises m' e → raised e) ∧ (∀ name ∈ queue', names name) ∧ c'.Backs names raised) ∧
      ∀ e, out = .error e → raised e := by
  induction queue generalizing m c with
  | nil =>
    cases h
    exact ⟨⟨hraised, hwaiting, hcache⟩, fun _ h => by cases h⟩
  | cons name rest ih =>
    obtain ⟨hname, hrest⟩ := List.forall_mem_cons.mp hwaiting
    rw [drain] at h
    split at h
    · next missing c₁ hc =>
      obtain ⟨-, hfound, -⟩ := hcache.retrieve hc
      exact absurd rfl (hfound hname missing)
    · next e c₁ hne hc =>
      cases h
      obtain ⟨hcache', -, herror⟩ := hcache.retrieve hc
      refine ⟨⟨hraised, hwaiting, hcache'⟩, ?_⟩
      rintro e' ⟨⟩
      refine (herror e rfl).resolve_right ?_
      rintro ⟨missing, hm⟩
      exact hne missing hm
    · next v c₁ hc =>
      obtain ⟨hcache', -, -⟩ := hcache.retrieve hc
      split at h
      · next e m₁ hput =>
        cases h
        obtain ⟨hretains, -, herror⟩ := RetainingMedium.put_retains hput
        refine ⟨⟨fun e he => hraised e (hretains.raises e he), hwaiting, hcache'⟩, ?_⟩
        rintro e' ⟨⟩
        exact hraised e (herror e rfl)
      · next m₁ hput =>
        obtain ⟨hretains, -, -⟩ := RetainingMedium.put_retains hput
        exact ih (fun e he => hraised e (hretains.raises e he)) hrest hcache' h

/-- A flush of a chain that backs what waits fails only where a medium does. -/
theorem Backs.flush (h : s.Backs names raised) {out : Except Error Unit}
    (hf : s.flush = (out, s')) : s'.Backs names raised ∧ ∀ e, out = .error e → raised e := by
  fun_induction Store.flush s generalizing s' out with
  | case1 m =>
    cases hf
    exact ⟨h, fun _ h => by cases h⟩
  | case2 m name rest => cases h.2.1
  | case3 m j c e m' j' c' hdrain =>
    cases hf
    obtain ⟨hraised, hwaiting, hcache⟩ := h
    exact backs_drain hraised hwaiting hcache hdrain
  | case4 m j c m' j' c' hdrain out c'' hflush ih =>
    cases hf
    obtain ⟨hraised, hwaiting, hcache⟩ := h
    obtain ⟨⟨hraised', hwaiting', hcache'⟩, -⟩ := backs_drain hraised hwaiting hcache hdrain
    obtain ⟨hcache'', herror⟩ := ih hcache' hflush
    exact ⟨⟨hraised', hwaiting', hcache''⟩, herror⟩

theorem Backs.atLevel {α : Type} {names' : String → Prop} {k : Nat} {f : Store μ → α × Store μ}
    {out : α} (h : s.Backs names raised) (hat : s.atLevel k f = some (out, s'))
    (hgrow : ∀ name, names name → names' name)
    (hf : ∀ t t', t.Backs names raised → f t = (out, t') → t'.Backs names' raised) :
    s'.Backs names' raised := by
  induction k generalizing s s' with
  | zero => exact hf s s' h (atLevel_zero_eq_some_iff.mp hat)
  | succ k ih =>
    obtain ⟨m, j, c, c', rfl, hc, rfl⟩ := atLevel_succ_eq_some_iff.mp hat
    obtain ⟨hraised, hwaiting, hcache⟩ := h
    exact ⟨hraised, fun name hname => hgrow name (hwaiting name hname), ih hcache hc⟩

end Store

def StoreCall.StoresBytes : StoreCall → Prop
  | store _ _ bs => bs ≠ []
  | retrieve _ _ | flush _ => True

namespace History

variable {μ : Type} [Medium μ] [RetainingMedium μ] {h : History μ} {raised : Error → Prop}

/-- The innermost medium has every name that waits. -/
def Backs (raised : Error → Prop) (h : History μ) : Prop := ∃ names, h.chain.Backs names raised

theorem Backs.step (hb : h.Backs raised) {call : StoreCall} (hcall : call.StoresBytes) :
    (h.step call).Backs raised := by
  obtain ⟨names, hb⟩ := hb
  cases call with
  | store level name bs =>
    rw [History.step]
    split
    · next s hat =>
      exact ⟨_, hb.atLevel hat (fun _ => Or.inl) fun t t' ht hs => (ht.storeBytes hcall hs).1 rfl⟩
    · next e s hat =>
      exact ⟨names, hb.atLevel hat (fun _ => id) fun t t' ht hs => (ht.storeBytes hcall hs).2 e rfl⟩
    · exact ⟨names, hb⟩
  | retrieve level name =>
    rw [History.step]
    split
    · next hat => exact ⟨names, hb.atLevel hat (fun _ => id) fun t t' ht hr => (ht.retrieve hr).1⟩
    · exact ⟨names, hb⟩
  | flush level =>
    rw [History.step]
    split
    · next hat => exact ⟨names, hb.atLevel hat (fun _ => id) fun t t' ht hf => (ht.flush hf).1⟩
    · exact ⟨names, hb⟩

theorem Backs.run (hb : h.Backs raised) {calls : List StoreCall}
    (hcalls : ∀ call ∈ calls, call.StoresBytes) : (h.run calls).Backs raised := by
  induction calls generalizing h with
  | nil => exact hb
  | cons call calls ih =>
    obtain ⟨hcall, hcalls⟩ := List.forall_mem_cons.mp hcalls
    exact ih (hb.step hcall) hcalls

/-- After any calls on a chain whose journals were empty, no waiting name is missing from the cache
in front of its journal. So a flush at any level does not find an inconsistency: one is reported
only if a medium itself raises that failure. -/
theorem waiting_never_missing {s : Store μ} (hempty : ∀ level ∈ s.levels, level.journal = [])
    (hlast : ∀ missing, ¬ Raises s.innermost (.noSuchBlock missing)) {calls : List StoreCall}
    (hcalls : ∀ call ∈ calls, call.StoresBytes) :
    (∀ m j c, Store.cached m j c ∈ (run ⟨s, []⟩ calls).chain.levels → ∀ name ∈ j, ∀ missing,
      (c.retrieve name).1 ≠ .error (.noSuchBlock missing)) ∧
    ∀ k out s', (run ⟨s, []⟩ calls).chain.atLevel k Store.flush = some (out, s') →
      ∀ missing, out = .error (.cacheInconsistency missing) →
        ∃ level ∈ s.levels, Raises level.medium (.cacheInconsistency missing) := by
  have hstart : Backs (fun e => ∃ level ∈ s.levels, Raises level.medium e) ⟨s, []⟩ :=
    ⟨_, Store.Backs.of_journals_empty hempty hlast fun level hl e he => ⟨level, hl, he⟩⟩
  obtain ⟨names, hbacks⟩ := hstart.run hcalls
  constructor
  · intro m j c hlevel name hname
    obtain ⟨-, hwaiting, hcache⟩ := hbacks.level hlevel
    exact (hcache.retrieve (Prod.ext rfl rfl)).2.1 (hwaiting name hname)
  · intro k out s' hat missing hout
    obtain ⟨t, ht, t', hflush⟩ := Store.exists_of_atLevel hat
    exact ((hbacks.level ht).flush hflush).2 _ hout

/-- A disk that fails once, behind memory that has other bytes already. -/
def stale : Store (Flaky Backing) :=
  .withCache ⟨.disk { path := "blocks" }, [some Faulty.offline]⟩
    (.plain ⟨.memory ⟨[("a", [9])]⟩, []⟩)

/-- Two writes of one name wait on after a flush that failed. -/
theorem run_stale : (run ⟨stale, []⟩ [.store 0 "a" [1], .store 0 "a" [2], .flush 0]).chain =
    .cached ⟨.disk { path := "blocks" }, []⟩ ["a", "a"] (.plain ⟨.memory ⟨[("a", [9])]⟩, []⟩) := by
  have hdrain : Store.drain
      (⟨.disk { path := "blocks" }, [some Faulty.offline]⟩ : Flaky Backing) ["a", "a"]
      (.plain ⟨.memory ⟨[("a", [9])]⟩, []⟩) =
      (.error Faulty.offline, ⟨.disk { path := "blocks" }, []⟩, ["a", "a"],
        .plain ⟨.memory ⟨[("a", [9])]⟩, []⟩) := rfl
  have hstore (bs : Bytes) (waiting : List String) :
      Store.storeBytes "a" bs
        (.cached (⟨.disk { path := "blocks" }, [some Faulty.offline]⟩ : Flaky Backing) waiting
          (.plain ⟨.memory ⟨[("a", [9])]⟩, []⟩)) =
        (.ok (), .cached ⟨.disk { path := "blocks" }, [some Faulty.offline]⟩ (waiting ++ ["a"])
          (.plain ⟨.memory ⟨[("a", [9])]⟩, []⟩)) := rfl
  simp only [run, List.foldl, step, stale, Store.withCache, Store.atLevel, hstore, List.nil_append,
    List.cons_append, Store.flush_of_drain_error hdrain]

/-- The name waits twice on that disk, and is found in memory with the bytes of before. -/
theorem waiting_never_missing_stale :
    (∀ level ∈ stale.levels, level.journal = []) ∧
    (∀ missing, ¬ Raises stale.innermost (.noSuchBlock missing)) ∧
    (∀ call ∈ [StoreCall.store 0 "a" [1], .store 0 "a" [2], .flush 0], call.StoresBytes) ∧
    (∀ missing, (Store.retrieve "a"
      (.plain (⟨.memory ⟨[("a", [9])]⟩, []⟩ : Flaky Backing))).1 ≠ .error (.noSuchBlock missing)) ∧
    ∀ missing, (run ⟨stale, []⟩ [.store 0 "a" [1], .store 0 "a" [2], .flush 0]).chain.flush.1 ≠
      .error (.cacheInconsistency missing) := by
  have hempty : ∀ level ∈ stale.levels, level.journal = [] := by
    simp [stale, Store.withCache, Store.plain, Store.levels, Store.journal]
  have hlast : ∀ missing, ¬ Raises stale.innermost (.noSuchBlock missing) := by
    rintro missing (h | h)
    · exact h
    · cases h
  have hcalls : ∀ call ∈ [StoreCall.store 0 "a" [1], .store 0 "a" [2], .flush 0],
      call.StoresBytes := by
    simp [StoreCall.StoresBytes]
  obtain ⟨hfound, hflush⟩ := waiting_never_missing hempty hlast hcalls
  refine ⟨hempty, hlast, hcalls, ?_, fun missing h => ?_⟩
  · rw [run_stale] at hfound
    exact hfound _ _ _ List.mem_cons_self "a" List.mem_cons_self
  · obtain ⟨level, hl, hraises⟩ := hflush 0 _ _ rfl missing h
    simp only [stale, Store.withCache, Store.plain, Store.levels, List.mem_cons,
      List.not_mem_nil, or_false] at hl
    rcases hl with rfl | rfl
    · rcases hraises with h | h
      · exact h
      · simp [Store.medium, Faulty.offline] at h
    · rcases hraises with h | h
      · exact h
      · cases h

end History

end ContentAddressed
