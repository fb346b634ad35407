import ContentAddressed.Proofs.Medium.Local
import ContentAddressed.Proofs.Walk.Asking
import ContentAddressed.Proofs.Walk.Limited
import ContentAddressed.Store.Fetch

/-!
# Chains of memory and disks

Reading from them changes nothing, so they answer every name always in the same way.
-/

namespace ContentAddressed

/-- Whether a failure can come from a store; the others are raised by walks only. -/
def Error.IsOfStore : Error → Prop
  | depthExceeded _ | integrity _ => False
  | _ => True

theorem Disk.read_error {d : Disk} {name : String} {e : Error} (h : d.read name = .error e) :
    e.IsOfStore := by
  by_cases haccepts : accepts name
  · simp only [read, checkName, if_pos haccepts, bind, Except.bind, throw, throwThe,
      MonadExceptOf.throw, pure, Except.pure] at h
    by_cases hlong : isTooLong name
    · rw [if_pos hlong] at h
      cases h
      trivial
    · rw [if_neg hlong] at h
      split at h
      · cases h
        trivial
      · cases h
        trivial
      · split at h <;> cases h
        trivial
  · simp only [read, checkName, if_neg haccepts, bind, Except.bind] at h
    cases h
    trivial

theorem Remote.get_error {r r' : Remote} {name : String} {e : Error}
    (h : r.get name = (.error e, r')) : e.IsOfStore := by
  have hout := congrArg Prod.fst h
  simp only [get, bind, Except.bind] at hout
  split at hout
  · next hanswer =>
    cases hask : (r.peer.ask (.download (r.downloadUrl name))).1 with
    | error cause =>
      rw [hask] at hanswer
      cases hanswer
      cases hout
      trivial
    | ok answer =>
      rw [hask] at hanswer
      cases hanswer
  · rw [acceptDownload] at hout
    split at hout
    · cases hout
      trivial
    · split at hout
      · cases hout
        trivial
      · dsimp only at hout
        split at hout <;> cases hout
        trivial

namespace Backing

theorem get_error {m : Backing} {name : String} {e : Error}
    (h : (Medium.get m name).1 = .error e) : e.IsOfStore := by
  have h : Medium.get m name = (.error e, (Medium.get m name).2) := Prod.ext h rfl
  cases m with
  | memory m =>
    obtain ⟨m', hget, -⟩ := exists_of_wrapped memory (Medium.get m name) h
    change m.get name = _ at hget
    rw [Memory.get] at hget
    split at hget <;> cases hget
    trivial
  | disk d =>
    obtain ⟨d', hget, -⟩ := exists_of_wrapped disk (Medium.get d name) h
    exact Disk.read_error (Prod.mk.inj hget).1
  | remote r =>
    obtain ⟨r', hget, -⟩ := exists_of_wrapped remote (Medium.get r name) h
    exact Remote.get_error hget
  | faulty m =>
    obtain ⟨m', hget, -⟩ := exists_of_wrapped faulty (Medium.get m name) h
    change m.get name = _ at hget
    rw [Faulty.get] at hget
    split at hget
    · cases hget
      trivial
    · split at hget <;> cases hget
      trivial

end Backing

/-- Whatever its media are, a chain does not raise what a walk raises. -/
theorem Store.retrieve_error {s s' : Store Backing} {name : String} {e : Error}
    (h : s.retrieve name = (.error e, s')) : e.IsOfStore := by
  induction s generalizing s' with
  | base m j =>
    exact Backing.get_error (Prod.mk.inj h).1
  | cached m j c ih =>
    rw [retrieve] at h
    split at h
    · cases h
    · exact Backing.get_error (Prod.mk.inj h).1
    · next hcache =>
      obtain ⟨rfl, -⟩ : _ ∧ _ := by simpa using h
      exact ih hcache

namespace Store

def IsLocal (s : Store Backing) : Prop := ∀ level ∈ s.levels, level.medium.IsLocal

theorem isLocal_base {m : Backing} {j : List String} : (base m j).IsLocal ↔ m.IsLocal := by
  simp [IsLocal, levels, medium]

theorem isLocal_cached {m : Backing} {j : List String} {c : Store Backing} :
    (cached m j c).IsLocal ↔ m.IsLocal ∧ c.IsLocal := by
  simp [IsLocal, levels, medium]

theorem retrieve_state {s : Store Backing} (h : s.IsLocal) (name : String) :
    (s.retrieve name).2 = s := by
  induction s with
  | base m j => exact congrArg (base · j) (Backing.get_state (isLocal_base.mp h) name)
  | cached m j c ih =>
    obtain ⟨hm, hc⟩ := isLocal_cached.mp h
    have hcache := ih hc
    rw [retrieve]
    split <;> rename_i hr <;> rw [hr] at hcache <;> simp only at hcache <;> rw [hcache]
    exact congrArg (cached · j c) (Backing.get_state hm name)

theorem afterReads_eq {s : Store Backing} (h : s.IsLocal) (keys : Option Keychain)
    (limit : Option Nat) (names : List String) :
    (walker keys limit).afterReads s names = s := by
  induction names with
  | nil => rfl
  | cons name names ih =>
    change (walker keys limit).afterReads (s.retrieve name).2 names = s
    rw [retrieve_state h]
    exact ih

theorem read_state {s : Store Backing} (h : s.IsLocal) (keys : Option Keychain)
    (limit : Option Nat) (l : Link) : ((walker keys limit).read l s).2 = s := by
  rw [Walker.read_state]
  exact retrieve_state h l.target

theorem keeps_eq {s : Store Backing} (h : s.IsLocal) (keys : Option Keychain)
    (limit : Option Nat) : (walker keys limit).Keeps fun _ store => store = s := by
  rintro l depth rest tooDeep visits store store' next rfl hfollows
  cases hfollows with
  | beyond => rfl
  | known => rfl
  | enter hd hv hr => rw [← read_state h keys limit l, hr]
  | shorten => rfl

/-- A walk leaves a chain of memory and disks as it is. -/
theorem fetch_state {s : Store Backing} (h : s.IsLocal) (keys : Option Keychain)
    (limit : Option Nat) (root : Link) : (s.fetch keys limit root).2 = s := by
  have hstops : (walker keys limit).Stops (fun _ store => store = s) (s.fetch keys limit root) :=
    Walker.fetch_stops (keeps_eq h keys limit) rfl (s.walker_halts keys limit root)
  generalize s.fetch keys limit root = out at hstops ⊢
  cases hstops with
  | done hI => exact hI
  | fail hI hd hr =>
    obtain rfl := hI
    rw [← read_state h, hr]

def graph (s : Store Backing) (keys : Option Keychain) (root : Link) : LinkGraph :=
  ⟨fun name => (s.retrieve name).1, keys, root⟩

theorem sees_graph {s : Store Backing} (h : s.IsLocal) (keys : Option Keychain)
    (limit : Option Nat) (root : Link) : (walker keys limit).Sees (s.graph keys root) s := by
  refine ⟨rfl, fun names name => ?_⟩
  rw [afterReads_eq h]
  rfl

/-- A chain that answers as a graph says does not say of itself that a walk went too deep. -/
theorem answer_ne_depthExceeded {s : Store Backing} {keys : Option Keychain} {limit : Option Nat}
    {g : LinkGraph} (h : (walker keys limit).Sees g s) (name : String) (n : Nat) :
    g.answer name ≠ .error (.depthExceeded n) := by
  intro hanswer
  have hretrieve : (s.retrieve name).1 = .error (.depthExceeded n) :=
    (h.answers [] name).trans hanswer
  exact retrieve_error (Prod.ext hretrieve rfl)

end Store

end ContentAddressed
