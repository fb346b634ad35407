import ContentAddressed.Proofs.Medium.Flaky
import ContentAddressed.Proofs.Store.Keeping
import ContentAddressed.Proofs.Store.Levels

/-!
# Histories of calls on a chain

A history is a chain together with the writes that it acknowledged. Whatever is called at whatever
level, and whichever calls of the media fail, every acknowledged write is on its medium or in the
journal, and a flush that succeeds leaves all of them on their media.
-/

namespace ContentAddressed

open KeepingMedium (held Sound)

inductive StoreCall where
  | store (level : Nat) (name : String) (bs : Bytes)
  | retrieve (level : Nat) (name : String)
  | flush (level : Nat)

/-- Bytes that are stored are the ones that belong to their name, and there are some. -/
def StoreCall.Agrees (content : String → Bytes) : StoreCall → Prop
  | store _ name bs => bs = content name ∧ bs ≠ []
  | retrieve _ _ => True
  | flush _ => True

/-- A chain after some calls, with the level and the name of each write that was acknowledged. -/
structure History (μ : Type) where
  chain : Store μ
  acknowledged : List (Nat × String) := []

namespace History

variable {μ : Type}

/-- A write at a level is accepted at the levels behind it too. -/
def Accepted (h : History μ) (k : Nat) (name : String) : Prop :=
  ∃ level ≤ k, (level, name) ∈ h.acknowledged

theorem accepted_cons {h : History μ} {s : Store μ} {level k : Nat} {name other : String} :
    Accepted ⟨s, (level, name) :: h.acknowledged⟩ k other ↔
      h.Accepted k other ∨ level ≤ k ∧ other = name := by
  simp only [Accepted, List.mem_cons, Prod.mk.injEq]
  constructor
  · rintro ⟨l, hl, ⟨rfl, rfl⟩ | hmem⟩
    · exact Or.inr ⟨hl, rfl⟩
    · exact Or.inl ⟨l, hl, hmem⟩
  · rintro (⟨l, hl, hmem⟩ | ⟨hl, rfl⟩)
    · exact ⟨l, hl, Or.inr hmem⟩
    · exact ⟨level, hl, Or.inl ⟨rfl, rfl⟩⟩

variable [Medium μ] {γ : Type} {view : μ → γ}

/-- The chain after one call; a level that it does not have is left alone. -/
def step (h : History μ) : StoreCall → History μ
  | .store level name bs =>
    match h.chain.atLevel level (Store.storeBytes name bs) with
    | some (.ok (), s) => ⟨s, (level, name) :: h.acknowledged⟩
    | some (.error _, s) => { h with chain := s }
    | none => h
  | .retrieve level name =>
    match h.chain.atLevel level (Store.retrieve name) with
    | some (_, s) => { h with chain := s }
    | none => h
  | .flush level =>
    match h.chain.atLevel level Store.flush with
    | some (_, s) => { h with chain := s }
    | none => h

def run (h : History μ) (calls : List StoreCall) : History μ := calls.foldl step h

theorem media_step (hread : KeptByReading view) (hwrite : KeptByWriting view) (h : History μ)
    (call : StoreCall) : (h.step call).chain.media.map view = h.chain.media.map view := by
  cases call with
  | store level name bs =>
    rw [step]
    split
    · next hat => exact Store.media_atLevel (Store.media_storeBytes hwrite · name bs) hat
    · next hat => exact Store.media_atLevel (Store.media_storeBytes hwrite · name bs) hat
    · rfl
  | retrieve level name =>
    rw [step]
    split
    · next hat => exact Store.media_atLevel (Store.media_retrieve hread · name) hat
    · rfl
  | flush level =>
    rw [step]
    split
    · next hat => exact Store.media_atLevel (Store.media_flush hread hwrite) hat
    · rfl

theorem media_run (hread : KeptByReading view) (hwrite : KeptByWriting view) (h : History μ)
    (calls : List StoreCall) : (h.run calls).chain.media.map view = h.chain.media.map view := by
  induction calls generalizing h with
  | nil => rfl
  | cons call calls ih => exact (ih (h.step call)).trans (h.media_step hread hwrite call)

theorem depth_run (h : History μ) (calls : List StoreCall) :
    (h.run calls).chain.depth = h.chain.depth := by
  have hread : KeptByReading fun _ : μ => () := fun _ _ => rfl
  have hwrite : KeptByWriting fun _ : μ => () := fun _ _ _ => rfl
  simpa [Store.length_media] using congrArg List.length (h.media_run hread hwrite calls)

variable [KeepingMedium μ]

def Keeps (content : String → Bytes) (h : History μ) : Prop := h.chain.Keeps content h.Accepted

variable {content : String → Bytes} {h : History μ}

theorem Keeps.atLevel (hk : h.Keeps content) {α : Type} {f : Store μ → α × Store μ} {level : Nat}
    {out : α} {s : Store μ} (hat : h.chain.atLevel level f = some (out, s))
    (hf : ∀ accepted t t', Store.Keeps content accepted t → f t = (out, t') →
      Store.Keeps content accepted t') : Keeps content { h with chain := s } :=
  Store.Keeps.atLevel hk hat (fun _ _ => id) (fun _ _ => rfl) fun t t' => hf _ t t'

theorem Keeps.step (hk : h.Keeps content) {call : StoreCall} (hcall : call.Agrees content) :
    (h.step call).Keeps content := by
  cases call with
  | store level name bs =>
    obtain ⟨rfl, hne⟩ := hcall
    rw [History.step]
    split
    · next s hat =>
      -- the levels in front of the call do not learn of the name
      refine Store.Keeps.atLevel hk hat (fun i other ho => accepted_cons.mpr (Or.inl ho))
        (fun i hi => ?_) fun t t' ht hstore => ?_
      · funext other
        simp [accepted_cons, Nat.not_le.mpr hi]
      · exact ((ht.storeBytes hne hstore).1 rfl).congr fun i other => by simp [accepted_cons]
    · next e s hat =>
      exact hk.atLevel hat fun _ _ _ ht hstore => (ht.storeBytes hne hstore).2 e rfl
    · exact hk
  | retrieve level name =>
    rw [History.step]
    split
    · next hat => exact hk.atLevel hat fun _ _ _ ht hr => (ht.retrieve hr).1
    · exact hk
  | flush level =>
    rw [History.step]
    split
    · next hat => exact hk.atLevel hat fun _ _ _ ht hf => (ht.flush hf).1
    · exact hk

theorem Keeps.run (hk : h.Keeps content) {calls : List StoreCall}
    (hcalls : ∀ call ∈ calls, call.Agrees content) : (h.run calls).Keeps content := by
  induction calls generalizing h with
  | nil => exact hk
  | cons call calls ih =>
    obtain ⟨hcall, hcalls⟩ := List.forall_mem_cons.mp hcalls
    exact ih (hk.step hcall) hcalls

/-- Calls on an empty chain keep what they acknowledge. -/
theorem keeps_run {s : Store μ} (hs : s.Empty) {calls : List StoreCall}
    (hcalls : ∀ call ∈ calls, call.Agrees content) : (run ⟨s, []⟩ calls).Keeps content := by
  have hstart : Keeps content ⟨s, []⟩ :=
    (Store.Keeps.of_empty hs).congr fun k name => by simp [Accepted]
  exact hstart.run hcalls

/-- No acknowledged write is lost: at every level of a chain that started empty, the names accepted
are those that the medium holds or the journal lists, and the medium holds the bytes that were
stored. Once a flush of the chain succeeds, every medium by itself has all that was accepted. -/
theorem accepted_held_or_pending {s : Store μ} (hs : s.Empty) {calls : List StoreCall}
    (hcalls : ∀ call ∈ calls, call.Agrees content) {k : Nat} (hk : k ≤ s.depth) :
    (∃ level, (run ⟨s, []⟩ calls).chain.levels[k]? = some level ∧
      (∀ name, (run ⟨s, []⟩ calls).Accepted k name ↔
        (held level.medium name).isSome ∨ name ∈ level.journal) ∧
      (k = s.depth → level.journal = []) ∧
      ∀ name bs, held level.medium name = some bs → bs = content name) ∧
    ∀ s', (run ⟨s, []⟩ calls).chain.flush = (.ok (), s') →
      ∃ level, s'.levels[k]? = some level ∧ level.journal = [] ∧
        ∀ name, (run ⟨s, []⟩ calls).Accepted k name →
          held level.medium name = some (content name) ∧
          ∀ out m, Medium.get level.medium name = (out, m) →
            (∀ v, out = .ok v → v.bytes = content name) ∧
            ∀ missing, out ≠ .error (.noSuchBlock missing) := by
  have hkeeps : (run ⟨s, []⟩ calls).Keeps content := keeps_run hs hcalls
  have hdepth : (run ⟨s, []⟩ calls).chain.depth = s.depth := depth_run ⟨s, []⟩ calls
  refine ⟨?_, fun s' hflush => ?_⟩
  · obtain ⟨level, hlevel⟩ := Store.exists_level (hdepth.symm ▸ hk)
    obtain ⟨hkept, hlast⟩ := Store.Keeps.level hkeeps hlevel
    exact ⟨level, hlevel, hkept.accepted_iff, fun heq => hlast (heq.trans hdepth.symm),
      hkept.content_eq⟩
  · have hdepth' : s'.depth = s.depth := by
      have hf := Store.depth_flush (run ⟨s, []⟩ calls).chain
      rw [hflush] at hf
      exact hf.trans hdepth
    obtain ⟨hkeeps', hjournals⟩ := Store.Keeps.flush hkeeps hflush
    obtain ⟨level, hlevel⟩ := Store.exists_level (hdepth'.symm ▸ hk)
    have hempty : level.journal = [] := hjournals rfl level (List.mem_of_getElem? hlevel)
    have hkept := (Store.Keeps.level hkeeps' hlevel).1
    rw [hempty] at hkept
    refine ⟨level, hlevel, hempty, fun name hname => ?_⟩
    have hheld : held level.medium name = some (content name) := hkept.held_of_flushed hname
    refine ⟨hheld, fun out m hget => ?_⟩
    obtain ⟨-, hbytes, hmissing⟩ := hkept.get hget
    exact ⟨hbytes, fun missing hm => by simp [hmissing missing hm] at hheld⟩

/-- Memory that fails once, behind a cache that does not fail. -/
def outage : Store (Flaky Memory) :=
  Store.withCache ⟨{}, [some Faulty.offline]⟩ (Store.plain ⟨{}, []⟩)

theorem outage_empty : outage.Empty := by
  intro level hl
  obtain rfl | rfl : level = outage ∨ level = Store.plain ⟨{}, []⟩ := by
    simpa [outage, Store.withCache, Store.plain, Store.levels] using hl
  · refine ⟨⟨trivial, fun name => ?_⟩, fun _ => rfl, rfl⟩
    simp [outage, Store.withCache, Store.medium, Faulty.offline]
  · exact ⟨⟨trivial, fun name => List.not_mem_nil⟩, fun _ => rfl, rfl⟩

/-- The first flush fails, and what was written waits. -/
theorem run_outage : run ⟨outage, []⟩ [.store 0 "a" [1], .flush 0] =
    ⟨.cached ⟨{}, []⟩ ["a"] (.plain ⟨⟨[("a", [1])]⟩, []⟩), [(0, "a")]⟩ := by
  have hstore : outage.storeBytes "a" [1] =
      (.ok (), .cached ⟨{}, [some Faulty.offline]⟩ ["a"] (.plain ⟨⟨[("a", [1])]⟩, []⟩)) := rfl
  have hdrain : Store.drain (⟨{}, [some Faulty.offline]⟩ : Flaky Memory) ["a"]
      (.plain ⟨⟨[("a", [1])]⟩, []⟩) =
      (.error Faulty.offline, ⟨{}, []⟩, ["a"], .plain ⟨⟨[("a", [1])]⟩, []⟩) := rfl
  simp only [run, List.foldl, step, Store.atLevel, hstore, Store.flush_of_drain_error hdrain]

theorem accepted_held_or_pending_outage :
    outage.Empty ∧ (∀ call ∈ [StoreCall.store 0 "a" [1], .flush 0], call.Agrees fun _ => [1]) ∧
      ∃ s' level, (run ⟨outage, []⟩ [.store 0 "a" [1], .flush 0]).chain.flush = (.ok (), s') ∧
        s'.levels[0]? = some level ∧ level.journal = [] ∧
          held level.medium "a" = some [1] := by
  have hcalls : ∀ call ∈ [StoreCall.store 0 "a" [1], .flush 0], call.Agrees fun _ => [1] := by
    simp [StoreCall.Agrees]
  obtain ⟨-, hflushed⟩ := accepted_held_or_pending outage_empty hcalls (Nat.zero_le _)
  have hdrain : Store.drain (⟨{}, []⟩ : Flaky Memory) ["a"] (.plain ⟨⟨[("a", [1])]⟩, []⟩) =
      (.ok (), ⟨⟨[("a", [1])]⟩, []⟩, [], .plain ⟨⟨[("a", [1])]⟩, []⟩) := rfl
  obtain ⟨s', hflush⟩ : ∃ s', (run ⟨outage, []⟩ [.store 0 "a" [1], .flush 0]).chain.flush =
      (.ok (), s') := by
    rw [run_outage, Store.flush_of_drain_ok hdrain, Store.plain, Store.flush]
    exact ⟨_, rfl⟩
  obtain ⟨level, hlevel, hempty, hname⟩ := hflushed s' hflush
  refine ⟨outage_empty, hcalls, s', level, hflush, hlevel, hempty, (hname "a" ?_).1⟩
  rw [run_outage]
  exact ⟨0, Nat.le_refl 0, List.mem_cons_self⟩

end History

end ContentAddressed
